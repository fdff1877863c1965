import Lading.Proofs.DataModule.Closure
import Lading.Proofs.Graph.Walk
import Lading.Proofs.Json.Fields

namespace Lading.DataModule

variable {μ : Type} {observer : Option (Observer μ)} {s t u : Session μ} {m : ModuleId}

def visited (s : Session μ) : Set ModuleId := {m | s.stateOf m ≠ .unexecuted}

def Unfilled (s : Session μ) : Prop := ∀ m, s.stateOf m = .unexecuted → s.exports m = []

/-- What happens to a session while some modules complete in a given order and none fails. -/
structure Visits (s t : Session μ) (order : List ModuleId) : Prop where
  fresh : ∀ m ∈ order, s.stateOf m = .unexecuted
  states : ∀ m, t.stateOf m = .unexecuted ↔ s.stateOf m = .unexecuted ∧ m ∉ order
  journal : ∃ g : History, t.journal = s.journal ++ g ∧ History.completions g = order ∧
    ∀ m, .failed m ∉ g
  kept : ∀ m ∉ order, t.exports m = s.exports m
  filled : ∀ m ∈ order, ∃ fields, fields? t m = some fields ∧ t.exports m = exported fields

theorem knows_of_fields? {fields : Json.Fields} (h : fields? s m = some fields) : s.Knows m := by
  obtain ⟨p, _, _, _, hp, -⟩ := file_of_fields? (by rw [h]; rfl)
  exact Session.knows_of_packageOf? hp

theorem Visits.trans {order rest : List ModuleId} (h : Visits s t order) (h' : Visits t u rest)
    (ht : t.Coherent) (he : t.Extends u) : Visits s u (order ++ rest) := by
  constructor
  case fresh =>
    intro m hm
    rcases List.mem_append.1 hm with hm | hm
    · exact h.fresh m hm
    · exact ((h.states m).1 (h'.fresh m hm)).1
  case states =>
    intro m
    rw [h'.states, h.states, List.mem_append, not_or, and_assoc]
  case journal =>
    obtain ⟨g, hg, hcompletions, hfailed⟩ := h.journal
    obtain ⟨g', hg', hcompletions', hfailed'⟩ := h'.journal
    refine ⟨g ++ g', by rw [hg', hg, List.append_assoc], by simp [hcompletions, hcompletions'], ?_⟩
    intro m hm
    rcases List.mem_append.1 hm with hm | hm
    · exact hfailed m hm
    · exact hfailed' m hm
  case kept =>
    intro m hm
    rw [List.mem_append, not_or] at hm
    rw [h'.kept m hm.2, h.kept m hm.1]
  case filled =>
    intro m hm
    by_cases hrest : m ∈ rest
    · exact h'.filled m hrest
    · have hm := (List.mem_append.1 hm).resolve_right hrest
      obtain ⟨fields, hfields, hexports⟩ := h.filled m hm
      exact ⟨fields, (fields?_extends ht he (knows_of_fields? hfields)).trans hfields,
        (h'.kept m hrest).trans hexports⟩

theorem visits_of_quiet (h : s.Quiet t) : Visits s t [] := by
  obtain ⟨g, hg, quiet⟩ := h.journal
  refine ⟨by simp, fun m ↦ by simp [h.states], ⟨g, hg, History.completions_quiet quiet, ?_⟩,
    fun m _ ↦ h.exports m, by simp⟩
  exact fun m hm ↦ Bool.noConfusion (quiet _ hm)

theorem Visits.visited {order : List ModuleId} (h : Visits s t order) :
    visited t = visited s ∪ {m | m ∈ order} := by
  ext m
  have hstates := not_congr (h.states m)
  rw [not_and_or, not_not] at hstates
  exact hstates

theorem Visits.unfilled {order : List ModuleId} (h : Visits s t order) (hs : Unfilled s) :
    Unfilled t := by
  intro m hm
  obtain ⟨hstate, horder⟩ := (h.states m).1 hm
  rw [h.kept m horder, hs m hstate]

theorem filterMap_of_forall₂ {α β : Type} {f : α → Option β} {as : List α} {bs : List β}
    (h : List.Forall₂ (fun a b ↦ f a = some b) as bs) : as.filterMap f = bs := by
  induction h with
  | nil => rfl
  | cons hab _ ih => rw [List.filterMap_cons_some hab, ih]

theorem children_of_requires {hooks : Hooks μ} {depth : Nat} {s₀ T : Session μ}
    {fields : Json.Fields} {ns : List ModuleId}
    (h : Requires hooks.observer (Session.execute hooks depth) m (requirements fields) ns s t)
    (hs : s.Sound) (hfields : fields? s₀ m = some fields) (hs₀ : s₀.Coherent) (he : s₀.Extends T)
    (ht : t.Extends T) : children T m = ns := by
  obtain ⟨-, -, -, hnames⟩ := h.spec hs
  have hfile := (fields?_extends hs₀ he (knows_of_fields? hfields)).trans hfields
  rw [children, requirementsOf, hfile]
  exact filterMap_of_forall₂ (hnames.imp fun _ _ hn ↦ (hn.1.extends ht).referent?)

theorem walk_of_requires {hooks : Hooks μ} {depth : Nat} {references : List String}
    {ns : List ModuleId}
    (hexecute : ∀ {s t n}, s.Sound → Unfilled s → s.Knows n →
      Session.execute hooks depth s n = some (.ok (), t) →
      ∃ order, Visits s t order ∧ ∀ T, t.Extends T → Walk (children T) (visited s) [n] order)
    (h : Requires hooks.observer (Session.execute hooks depth) m references ns s t)
    (hs : s.Sound) (hunfilled : Unfilled s) :
    ∃ order, Visits s t order ∧ ∀ T, t.Extends T → Walk (children T) (visited s) ns order := by
  induction h with
  | nil s => exact ⟨[], visits_of_quiet (.refl s), fun _ _ ↦ .nil _⟩
  | @cons s u v t reference references n ns hresolve hrun hrest ih =>
    have hc := Session.changes_of_resolve hs.coherent hresolve
    have hu := hs.changes hc
    have hn := Session.knows_of_resolve hs.coherent hresolve
    have hresolved : Visits s u [] := visits_of_quiet hc.quiet
    have hstart : visited u = visited s := by simpa using hresolved.visited
    obtain ⟨hv, -, hlater⟩ := Session.execute_sound hu hn hrun
    obtain ⟨order, hvisits, hwalk⟩ := hexecute hu (hresolved.unfilled hunfilled) hn hrun
    obtain ⟨rest, hvisits', hwalk'⟩ := ih hv (hvisits.unfilled (hresolved.unfilled hunfilled))
    have hextends := (hrest.spec hv).2.2.1.toExtends
    refine ⟨order ++ rest, ?_, ?_⟩
    · exact (hresolved.trans hvisits hu.coherent hlater.toExtends).trans hvisits' hv.coherent
        hextends
    · intro T hT
      have hfirst := hwalk T (hextends.trans hT)
      rw [hstart] at hfirst
      apply hfirst.cons
      rw [← hstart, ← hvisits.visited]
      exact hwalk' T hT

theorem journal_exporting (fields : Json.Fields) (s : Session μ) :
    (exporting m fields s).journal = s.journal := by
  induction fields generalizing s with
  | nil => rfl
  | cons field fields ih => exact ih _

theorem keys_exported {fields : Json.Fields} (h : fields? s m = some fields) :
    (exported fields).keys.Nodup := by
  obtain ⟨_, _, _, bytes, -, -, -, -, -, hread⟩ := file_of_fields? (by rw [h]; rfl)
  rw [h, fieldsOf?] at hread
  split at hread
  · rename_i hobject
    cases hread
    exact (Json.nodup_of_read hobject).sublist (List.filter_sublist.map _)
  · cases hread

def completing (m : ModuleId) (fields : Json.Fields) (s : Session μ) : Session μ :=
  ((exporting m (exported fields) s).settle m (.ok ())).2

section Completing

variable {fields : Json.Fields}

theorem later_completing (hs : s.Sound) (m : ModuleId) (fields : Json.Fields) :
    s.Later (completing m fields s) :=
  (sound_exporting hs m (exported fields)).2.1.trans (Session.later_settle _ m (.ok ()))

theorem stateOf_completing (hs : s.Sound) (hm : s.Knows m) (fields : Json.Fields) (n : ModuleId) :
    (completing m fields s).stateOf n = if m = n then .executed else s.stateOf n := by
  obtain ⟨-, hlater, -, hstates⟩ := sound_exporting hs m (exported fields)
  rw [completing, Session.stateOf_settle _ (hlater.knows hm), hstates]
  rfl

theorem journal_completing (m : ModuleId) (fields : Json.Fields) (s : Session μ) :
    (completing m fields s).journal = s.journal ++ [.finished m] := by
  rw [completing, Session.journal_settle, journal_exporting]
  rfl

theorem exports_completing (hm : s.Knows m) (hempty : s.exports m = [])
    (h : fields? t m = some fields) (n : ModuleId) :
    (completing m fields s).exports n = if m = n then exported fields else s.exports n := by
  rw [completing, Session.exports_settle_ok, exports_exporting hm]
  split
  · rename_i hmn
    rw [← hmn, hempty]
    exact Entries.putAll_of_nodup (keys_exported h)
  · rfl

theorem Visits.notMem_of_begin {order : List ModuleId} (hm : s.Knows m)
    (h : Visits (s.begin m) t order) : m ∉ order := by
  intro hmem
  have hfresh := h.fresh m hmem
  rw [s.stateOf_begin hm] at hfresh
  simp [Event.settle] at hfresh

/-- A module that was started completes after the ones that its body required. -/
theorem Visits.complete {order : List ModuleId} (h : Visits (s.begin m) t order) (hs : s.Sound)
    (hm : s.Knows m) (hstate : s.stateOf m = .unexecuted) (hunfilled : Unfilled s) (ht : t.Sound)
    (hlater : (s.begin m).Later t) (hfields : fields? s m = some fields) :
    Visits s (completing m fields t) (order ++ [m]) := by
  have hbegin (n : ModuleId) : (s.begin m).stateOf n = if m = n then .executing else s.stateOf n :=
    s.stateOf_begin hm n
  have hknows : t.Knows m := hlater.knows ((s.extends_begin m).knows hm)
  have hm' : m ∉ order := h.notMem_of_begin hm
  have hne {n : ModuleId} (hn : n ∈ order) : m ≠ n := fun hmn ↦ hm' (hmn ▸ hn)
  have hempty : t.exports m = [] := by
    rw [h.kept m hm', Session.exports_begin, hunfilled m hstate]
  have hexports := exports_completing hknows hempty hfields
  have hcompleting := later_completing ht m fields
  constructor
  case fresh =>
    intro n hn
    rcases List.mem_append.1 hn with hn | hn
    · have hfresh := h.fresh n hn
      rwa [hbegin, if_neg (hne hn)] at hfresh
    · rwa [List.mem_singleton.1 hn]
  case states =>
    intro n
    rw [stateOf_completing ht hknows, List.mem_append, List.mem_singleton]
    by_cases hmn : m = n
    · simp [hmn]
    · rw [if_neg hmn, h.states, hbegin, if_neg hmn]
      simp [Ne.symm hmn]
  case journal =>
    obtain ⟨g, hg, hcompletions, hfailed⟩ := h.journal
    refine ⟨.started m :: g ++ [.finished m], ?_, ?_, ?_⟩
    · rw [journal_completing, hg]
      simp [Session.begin, Session.record, Session.setState, Session.update]
    · rw [History.completions_append]
      exact congrArg (· ++ [m]) hcompletions
    · intro n hn
      simp [hfailed n] at hn
  case kept =>
    intro n hn
    rw [List.mem_append, List.mem_singleton, not_or] at hn
    rw [hexports, if_neg (Ne.symm hn.2), h.kept n hn.1, Session.exports_begin]
  case filled =>
    intro n hn
    rcases List.mem_append.1 hn with hn | hn
    · obtain ⟨fields', hfields', hexports'⟩ := h.filled n hn
      refine ⟨fields', ?_, by rw [hexports, if_neg (hne hn), hexports']⟩
      rw [fields?_extends ht.coherent hcompleting.toExtends (knows_of_fields? hfields'), hfields']
    · rw [List.mem_singleton.1 hn]
      refine ⟨fields, ?_, by rw [hexports, if_pos rfl]⟩
      have hend := (s.later_begin m).trans (hlater.trans hcompleting)
      rw [fields?_extends hs.coherent hend.toExtends hm, hfields]

end Completing

theorem unfilled_begin (hm : s.Knows m) (hunfilled : Unfilled s) : Unfilled (s.begin m) := by
  intro n hn
  rw [s.stateOf_begin hm] at hn
  by_cases hmn : m = n
  · simp [Event.settle, hmn] at hn
  · rw [Session.exports_begin]
    exact hunfilled n (by simpa [Event.settle, hmn] using hn)

theorem mem_visited {state : ModuleState} (h : s.stateOf m = state) (hne : state ≠ .unexecuted) :
    m ∈ visited s := by
  rw [visited, Set.mem_ofPred_eq, h]
  exact hne

theorem visited_begin (hm : s.Knows m) : visited (s.begin m) = insert m (visited s) := by
  ext n
  rw [Set.mem_insert_iff, visited, visited, Set.mem_ofPred_eq, Set.mem_ofPred_eq,
    s.stateOf_begin hm]
  by_cases hmn : m = n
  · simp [Event.settle, hmn]
  · simp [Event.settle, hmn, Ne.symm hmn]

theorem walk_of_execute {depth : Nat} (hs : s.Sound) (hunfilled : Unfilled s) (hm : s.Knows m)
    (h : Session.execute (hooks observer) depth s m = some (.ok (), t)) :
    ∃ order, Visits s t order ∧ ∀ T, t.Extends T → Walk (children T) (visited s) [m] order := by
  induction depth using Nat.strongRecOn generalizing s t m with
  | ind depth ih =>
    obtain ⟨hstate, -, rfl⟩ | ⟨hstate, hc⟩ | ⟨hstate, d, result, u, rfl, hu, hsettle⟩ :=
      Session.execute_cases h
    · have hvisited : m ∈ visited t := mem_visited hstate (by decide)
      exact ⟨[], visits_of_quiet (.refl t), fun T _ ↦ .skip hvisited (.nil _)⟩
    · have hvisited : m ∈ visited s := mem_visited hstate (by decide)
      have hquiet := (Session.changes_of_meetCycle hc).quiet
      exact ⟨[], visits_of_quiet hquiet, fun T _ ↦ .skip hvisited (.nil _)⟩
    · cases result with
      | error error => cases hsettle
      | ok =>
        rw [← show (u.settle m (.ok ())).2 = t from congrArg Prod.snd hsettle]
        have hbegin := hs.begin hm hstate
        obtain ⟨fields, ns, v, hfields, hrequires, rfl⟩ := of_run hu
        obtain ⟨hv, -, hlater, -⟩ := hrequires.spec hbegin
        obtain ⟨order, hvisits, hwalk⟩ := walk_of_requires
          (fun hs hunfilled hn h ↦ ih d (Nat.lt_succ_self d) hs hunfilled hn h)
          hrequires hbegin (unfilled_begin hm hunfilled)
        have hfile := (fields?_extends hs.coherent (s.extends_begin m) hm).symm.trans hfields
        refine ⟨order ++ [m],
          hvisits.complete hs hm hstate hunfilled hv hlater hfile, ?_⟩
        intro T hT
        apply Walk.visit
        · simp [visited, hstate]
        · have hvT : v.Extends T := (later_completing hv m fields).toExtends.trans hT
          rw [children_of_requires hrequires hbegin hfields hbegin.coherent
            (hlater.toExtends.trans hvT) hvT, ← visited_begin hm]
          exact hwalk T hvT
        · exact .nil _

theorem unfilled_start (config : Config) (files : FileTree) (finders : List Finder) (memory : μ) :
    Unfilled (.start config files finders memory) :=
  fun m _ ↦ by simp [Session.start, Session.exports, Session.module?]

theorem walk_of_require {config : Config} {files : FileTree} {finders : List Finder} {memory : μ}
    {reference : String}
    (h : Session.require (hooks observer) (.start config files finders memory) reference none true =
      some (.ok m, t)) :
    ∃ order, Visits (.start config files finders memory) t order ∧
      Walk (children t) ∅ [m] order := by
  have hs := Session.sound_start config files finders memory
  obtain ⟨error, -, hr⟩ | ⟨n, u, hr, ⟨hfalse, -⟩ | ⟨-, result, hrun, hresult⟩⟩ :=
    Session.require_cases h
  · cases hr
  · cases hfalse
  · cases result with
    | error error => cases hresult
    | ok =>
      cases hresult
      have hc := Session.changes_of_resolve hs.coherent hr
      have hu := hs.changes hc
      have hm := Session.knows_of_resolve hs.coherent hr
      have hresolved := visits_of_quiet hc.quiet
      have hunfilled := hresolved.unfilled (unfilled_start config files finders memory)
      obtain ⟨order, hvisits, hwalk⟩ := walk_of_execute hu hunfilled hm hrun
      obtain ⟨-, -, hlater⟩ := Session.execute_sound hu hm hrun
      have hempty : visited u = ∅ := by
        ext x
        simp [visited, hc.quiet.states, Session.stateOf_start]
      refine ⟨order, hresolved.trans hvisits hu.coherent hlater.toExtends, ?_⟩
      rw [← hempty]
      exact hwalk t (.refl t)

/-- In a new session a require returns, whatever the files hold. If it succeeds, the executed
modules are those that the files lead to from its answer, each was started once, they completed in
the order of the depth-first walk, and each exports the fields of its file but for `require`. -/
theorem require_walk (config : Config) (files : FileTree) (finders : List Finder) (memory : μ)
    (observer : Option (Observer μ)) (reference : String) :
    ∃ r t, Session.require (hooks observer) (.start config files finders memory) reference none
        true = some (r, t) ∧
      ∀ m, r = .ok m →
        (∀ x, t.stateOf x = .executed ↔ Reaches t m x) ∧
        (∀ x, t.journal.count (.started x) = if t.stateOf x = .executed then 1 else 0) ∧
        (∀ order, Walk (children t) ∅ [m] order ↔ order = History.completions t.journal) ∧
        ∀ x, t.stateOf x = .executed → ∃ fields, fields? t x = some fields ∧
          (∀ reference ∈ requirements fields, ∃ y, t.referent? x reference = some y) ∧
          t.exports x = exported fields := by
  have hs := settled_start config files finders memory
  obtain ⟨r, t, h⟩ := returns_require hs.toSound hs.stack observer reference none true
  refine ⟨r, t, h, ?_⟩
  rintro m rfl
  obtain ⟨ht, -⟩ := hs.require h
  obtain ⟨order, hvisits, hwalk⟩ := walk_of_require h
  obtain ⟨g, hg, hcompletions, hfailed⟩ := hvisits.journal
  have hjournal : t.journal = g := hg
  rw [← hjournal] at hcompletions hfailed
  have hexecuted (x : ModuleId) : t.stateOf x = .executed ↔ x ∈ order := by
    rw [← ht.faithful.finished_mem, ← History.mem_completions, hcompletions]
  have hreaches : Reaches t = Relation.ReflTransGen fun a b ↦ b ∈ children t a := by
    simp only [Reaches, mem_children]
  refine ⟨?_, ?_, ?_, ?_⟩
  · intro x
    rw [hexecuted, hwalk.mem_iff, hreaches]
  · intro x
    rw [ht.faithful.lawful.count_started (hfailed x), ← ht.faithful.states]
    cases hstate : t.stateOf x with
    | executing =>
      rw [← ht.faithful.mem_stack, ht.stack] at hstate
      cases hstate
    | unexecuted | executed => rfl
  · intro order'
    rw [hcompletions]
    constructor
    · intro h
      exact h.unique hwalk
    · rintro rfl
      exact hwalk
  · intro x hx
    obtain ⟨fields, hfields, hreferences⟩ := ht.grounded x hx
    obtain ⟨fields', hfields', hexports⟩ := hvisits.filled x ((hexecuted x).1 hx)
    rw [hfields] at hfields'
    cases hfields'
    refine ⟨fields, hfields, ?_, hexports⟩
    intro reference hr
    obtain ⟨y, hy, -⟩ := hreferences reference hr
    exact ⟨y, hy.referent?⟩

def detour : FileTree :=
  .ofTexts
    [("/r/p/nnp.json", "\x7b\"name\":\"p\",\"version\":\"1.0.0\"\x7d"),
      ("/r/p/a.json", "\x7b\"require\":[\"./b\",\"./c\"]\x7d"),
      ("/r/p/b.json", "\x7b\"require\":[\"./a\",\"./b\"],\"x\":1\x7d"),
      ("/r/p/c.json", "\x7b\"require\":[\"./x/../b\"]\x7d")]

theorem require_walk_detour :
    ∃ t : Session Unit,
      Session.require (hooks none)
        (.start (Config.standard "/work" "/home") detour [.directory "/r"] ()) "p/a" none true =
          some (.ok ⟨0⟩, t) ∧
      Walk (children t) ∅ [⟨0⟩] [⟨1⟩, ⟨2⟩, ⟨0⟩] ∧ Reaches t ⟨0⟩ ⟨2⟩ ∧
      t.journal.count (.started ⟨2⟩) = 1 := by
  have hrun : (Session.require (hooks none)
      (.start (Config.standard "/work" "/home") detour [.directory "/r"] ())
      "p/a" none true).any fun (r, t) ↦
        r.toOption = some ⟨0⟩ ∧ History.completions t.journal = [⟨1⟩, ⟨2⟩, ⟨0⟩] ∧
          t.stateOf ⟨2⟩ = .executed := by
    decide +kernel
  obtain ⟨r, t, ht, hwalk⟩ := require_walk (Config.standard "/work" "/home") detour
    [.directory "/r"] () none "p/a"
  simp only [ht, Option.any_some, decide_eq_true_eq] at hrun
  obtain ⟨hr, hcompletions, hexecuted⟩ := hrun
  cases r with
  | error error => cases hr
  | ok m =>
    cases hr
    obtain ⟨hreaches, hcount, horder, -⟩ := hwalk ⟨0⟩ rfl
    refine ⟨t, ht, (horder _).2 hcompletions.symm, (hreaches ⟨2⟩).1 hexecuted, ?_⟩
    rw [hcount, if_pos hexecuted]

end Lading.DataModule
