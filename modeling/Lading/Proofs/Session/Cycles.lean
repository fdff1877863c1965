import Lading.Proofs.Session.Forwarding
import Lading.Proofs.Session.Reframe

namespace Lading

variable {μ : Type}

def Event.cycle? : Event → Option (ModuleId × String)
  | .cycle m identifier _ => some (m, identifier)
  | _ => none

namespace History

def cycles (h : History) : List (ModuleId × String) := h.filterMap Event.cycle?

end History

open History

namespace Session

section Resolve

variable {s t : Session μ}

theorem cycles_of_addPackage {manifest : Manifest} {r : Except SessionError Package}
    (h : s.addPackage manifest = (r, t)) : cycles t.journal = cycles s.journal := by
  obtain ⟨_, cache, -, rfl⟩ | ⟨p, cache, warnings, -, -, -, -, -, rfl⟩ := addPackage_cases h
  · rfl
  · simp [register, cycles, Event.cycle?, Function.comp_def]

theorem cycles_of_loadPackage {name : String} {selector : Option Selector}
    {r : Except SessionError Package} (h : s.loadPackage name selector = (r, t)) :
    cycles t.journal = cycles s.journal := by
  obtain ⟨_, -, rfl⟩ | ⟨_, _, _, -, rfl⟩ | ⟨_, -, -, rfl, -⟩ | ⟨_, _, -, -, -, hadd⟩ :=
    loadPackage_cases h
  · rfl
  · simp [record, cycles, Event.cycle?]
  · rfl
  · exact cycles_of_addPackage hadd

theorem cycles_of_loadModule {p : Package} {path : Option String}
    {r : Except SessionError ModuleId} (h : s.loadModule p path = (r, t)) :
    cycles t.journal = cycles s.journal := by
  obtain ⟨_, -, -, rfl⟩ | ⟨name, -, ⟨_, -, -, rfl⟩ | ⟨-, -, rfl⟩⟩ := loadModule_cases h <;> rfl

theorem cycles_of_resolve {observer : Option (Observer μ)} {reference : String}
    {origin : Option ModuleId} {r : Except SessionError ModuleId}
    (h : s.resolve observer reference origin = (r, t)) :
    cycles t.journal = cycles s.journal := by
  obtain ⟨_, memory, -, rfl⟩ | ⟨_, _, _, -, -, -, -, -, hmodule⟩ |
    ⟨_, memory, -, -, -, -, hnamed⟩ := resolve_cases h
  · rfl
  · exact cycles_of_loadModule hmodule
  · obtain ⟨_, u, hload, hrest⟩ := resolveNamed_cases hnamed
    have hu : cycles u.journal = cycles s.journal := (cycles_of_loadPackage hload :)
    rcases hrest with ⟨_, -, -, rfl⟩ | ⟨_, -, hmodule⟩
    · exact hu
    · exact (cycles_of_loadModule hmodule).trans hu

theorem cycles_record_cycle (s : Session μ) (m : ModuleId) (identifier : String)
    (source : Option String) :
    cycles (s.record (.cycle m identifier source)).journal =
      cycles s.journal ++ [(m, identifier)] := by
  simp [record, cycles, Event.cycle?]

theorem cycles_begin (s : Session μ) (m : ModuleId) :
    cycles (s.begin m).journal = cycles s.journal := by
  change cycles (s.journal ++ [.started m]) = cycles s.journal
  simp [cycles, Event.cycle?]

theorem cycles_settle (s : Session μ) (m : ModuleId) (result : Except SessionError Unit) :
    cycles (s.settle m result).2.journal = cycles s.journal := by
  cases result <;> simp [journal_settle, ending, cycles, Event.cycle?]

end Resolve

end Session

namespace Point

variable {hooks : Hooks μ} {p q : Point μ}

def cycle? (p : Point μ) : Option (ModuleId × String) :=
  match p.control with
  | .enter m =>
    if p.session.stateOf m = .executing then some (m, p.session.identifier m) else none
  | _ => none

/-- A run, with the cycles that it meets. -/
inductive Meets (hooks : Hooks μ) (p : Point μ) : List (ModuleId × String) → Point μ → Prop
  | refl : Meets hooks p [] p
  | tail {met : List (ModuleId × String)} {q r : Point μ} (h : Meets hooks p met q)
      (hstep : Step hooks q r) : Meets hooks p (met ++ q.cycle?.toList) r

theorem Step.cycles (h : Step hooks p q) (hallowed : p.session.config.strictCycles = false) :
    cycles q.session.journal = cycles p.session.journal ++ p.cycle?.toList := by
  have none {s t : Session μ} (h : History.cycles t.journal = History.cycles s.journal) :
      History.cycles t.journal = History.cycles s.journal ++ Option.none.toList := by
    rw [h, Option.toList_none, List.append_nil]
  cases h with
  | load => exact none (Session.cycles_of_loadPackage rfl)
  | add => exact none (Session.cycles_of_addPackage rfl)
  | find | resolve => exact none (Session.cycles_of_resolve rfl)
  | require h | refuse h | call h => exact none (Session.cycles_of_resolve h)
  | finish | fail => exact none (Session.cycles_settle ..)
  | assign | remember | inspect | execute | resume | answer => exact none rfl
  | pass h => simp [cycle?, h]
  | @start s w m h => simp [cycle?, h, s.cycles_begin]
  | @cycle s w m h =>
    have hstrict : ¬s.config.strictCycles := by simpa using hallowed
    simp [cycle?, h, Session.meetCycle, hstrict, Session.cycles_record_cycle]

theorem Steps.meets (h : Steps hooks p q) (hp : p.Sound)
    (hallowed : p.session.config.strictCycles = false) :
    ∃ met, p.Meets hooks met q ∧
      cycles q.session.journal = cycles p.session.journal ++ met := by
  induction h with
  | refl => exact ⟨[], .refl, (List.append_nil _).symm⟩
  | @tail q r hsteps hstep ih =>
    obtain ⟨met, hmeets, hmet⟩ := ih
    have hconfig : q.session.config = p.session.config := (Steps.later hsteps hp).config
    refine ⟨_, hmeets.tail hstep, ?_⟩
    rw [hstep.cycles (hconfig ▸ hallowed), hmet, List.append_assoc]

theorem Meets.steps {met : List (ModuleId × String)} (h : p.Meets hooks met q) :
    Steps hooks p q := by
  induction h with
  | refl => exact .refl
  | tail _ hstep ih => exact ih.tail hstep

theorem of_cycle? {m : ModuleId} {identifier : String} (h : p.cycle? = some (m, identifier)) :
    p.session.stateOf m = .executing ∧ identifier = p.session.identifier m := by
  unfold cycle? at h
  split at h
  · split at h
    · rename_i hm
      cases h
      exact ⟨hm, rfl⟩
    · cases h
  · cases h

theorem Meets.identifier {met : List (ModuleId × String)} (h : p.Meets hooks met q) (hp : p.Sound)
    {m : ModuleId} {identifier : String} (hm : (m, identifier) ∈ met) :
    q.session.Knows m ∧ identifier = q.session.identifier m := by
  induction h with
  | refl => cases hm
  | @tail met q r h hstep ih =>
    have hq := Steps.sound h.steps hp
    have hm' : q.session.Knows m ∧ identifier = q.session.identifier m := by
      rcases List.mem_append.1 hm with hm | hm
      · exact ih hm
      · obtain ⟨executing, hidentifier⟩ := of_cycle? (Option.mem_toList.1 hm)
        exact ⟨Session.knows_of_stateOf executing (by decide), hidentifier⟩
    obtain ⟨hknows, rfl⟩ := hm'
    have hlater := hstep.later hq
    exact ⟨hlater.knows hknows,
      (Session.identifier_extends hlater.toExtends hq.coherent hknows).symm⟩

end Point

namespace Session

def strictly (s : Session μ) : Session μ :=
  { s with config := { s.config with strictCycles := true } }

end Session

def Observer.Indifferent (observe : Observer μ) : Prop :=
  ∀ s origin name, observe s.strictly origin name = observe s origin name

def Body.Indifferent : Body μ → Prop
  | .finish | .fail _ => True
  | .assign _ _ _ next | .remember _ next => next.Indifferent
  | .inspect next => ∀ s, next s.strictly = next s ∧ (next s).Indifferent
  | .resolve _ next | .require _ next => ∀ result, (next result).Indifferent

structure Hooks.Indifferent (hooks : Hooks μ) : Prop where
  body : ∀ s m, hooks.body s.strictly m = hooks.body s m
  rest : ∀ s m, (hooks.body s m).Indifferent
  observer : ∀ observe, hooks.observer = some observe → observe.Indifferent
  depth : ∀ s, hooks.depth s.strictly = hooks.depth s

namespace Session

theorem resolve_strictly {observer : Option (Observer μ)}
    (hobserver : ∀ observe, observer = some observe → observe.Indifferent) (s : Session μ)
    (reference : String) (origin : Option ModuleId) :
    s.strictly.resolve observer reference origin =
      ((s.resolve observer reference origin).1, (s.resolve observer reference origin).2.strictly) :=
  resolve_reframe (f := fun c ↦ { c with strictCycles := true }) (g := id) rfl (fun _ _ ↦ rfl)
    (fun observe h name ↦ hobserver observe h s origin name) reference

theorem settle_strictly (s : Session μ) (m : ModuleId) (result : Except SessionError Unit) :
    s.strictly.settle m result = ((s.settle m result).1, (s.settle m result).2.strictly) := by
  cases result <;> rfl

/-- How a run from `s` that ended with `r` in `t` ends where cycles are errors: it is the same, or
it fails with the first cycle. -/
inductive Mirrors {α : Type} (s : Session μ) (r : Except SessionError α) (t : Session μ) :
    Run μ α → Prop
  | same (h : cycles t.journal = cycles s.journal) : Mirrors s r t (some (r, t.strictly))
  | cycle {m : ModuleId} {identifier : String} {rest : List (ModuleId × String)}
      (h : cycles t.journal = cycles s.journal ++ (m, identifier) :: rest) (t' : Session μ) :
      Mirrors s r t (some (.error (.cyclicRequire identifier), t'))

namespace Mirrors

variable {α : Type} {s t u : Session μ} {r : Except SessionError α} {run : Run μ α}

theorem grows (h : Mirrors s r t run) : ∃ rest, cycles t.journal = cycles s.journal ++ rest := by
  cases h with
  | same h => exact ⟨[], by rw [h, List.append_nil]⟩
  | cycle h => exact ⟨_, h⟩

theorem head (hu : cycles u.journal = cycles s.journal) (h : Mirrors u r t run) :
    Mirrors s r t run := by
  cases h with
  | same h => exact .same (h.trans hu)
  | cycle h t' => exact .cycle (hu ▸ h) t'

/-- What follows a run does not come into play after a cycle if it passes that error on. -/
theorem bind {β : Type} {r' : Except SessionError β}
    (next : Except SessionError α → Session μ → Run μ β) (h : Mirrors s r u run)
    (hsame : Mirrors u r' t (next r u.strictly))
    (hcycle : ∀ identifier v, ∃ v',
      next (.error (.cyclicRequire identifier)) v = some (.error (.cyclicRequire identifier), v')) :
    Mirrors s r' t (run.bind fun (result, v) ↦ next result v) := by
  cases h with
  | same h => exact hsame.head h
  | @cycle m identifier rest h v =>
    obtain ⟨v', hv'⟩ := hcycle identifier v
    obtain ⟨rest', hrest⟩ := hsame.grows
    change Mirrors s r' t (next (.error (.cyclicRequire identifier)) v)
    rw [hv']
    exact .cycle (by rw [hrest, h, List.append_assoc, List.cons_append]) v'

end Mirrors

theorem mirrors_meetCycle {s t : Session μ} {m : ModuleId} {r : Except SessionError Unit}
    (h : s.meetCycle m = (r, t)) : Mirrors s r t (some (s.strictly.meetCycle m)) := by
  have hstrict : s.strictly.meetCycle m = (.error (.cyclicRequire (s.identifier m)), s.strictly) :=
    rfl
  rw [hstrict]
  unfold meetCycle at h
  dsimp only at h
  split at h
  · cases h
    exact .same rfl
  · cases h
    exact .cycle (s.cycles_record_cycle m _ _) _

theorem Mirrors.settle {s t u : Session μ} {m : ModuleId} {result r : Except SessionError Unit}
    {run : Run μ Unit} (h : Mirrors s result u run) (hsettle : u.settle m result = (r, t)) :
    Mirrors s r t (run.map fun (result, v) ↦ v.settle m result) := by
  have hcycles := u.cycles_settle m result
  rw [hsettle] at hcycles
  have hsame : Mirrors u r t (some (u.strictly.settle m result)) := by
    rw [settle_strictly, hsettle]
    exact .same hcycles
  rw [Option.map_eq_bind]
  exact h.bind (fun result v ↦ some (v.settle m result)) hsame fun _ _ ↦ ⟨_, rfl⟩

end Session

section Run

open Session

variable {hooks : Hooks μ} {s t : Session μ}

theorem Body.run_mirrors {observer : Option (Observer μ)}
    (hobserver : ∀ observe, observer = some observe → observe.Indifferent)
    {execute : Session μ → ModuleId → Run μ Unit}
    (hexecute : ∀ s n r t, execute s n = some (r, t) → Mirrors s r t (execute s.strictly n))
    {m : ModuleId} {b : Body μ} (hb : b.Indifferent) (hforwards : b.Forwards m)
    {r : Except SessionError Unit} (h : b.run observer execute m s = some (r, t)) :
    Mirrors s r t (b.run observer execute m s.strictly) := by
  induction b generalizing s with
  | finish | fail error =>
    cases h
    exact .same rfl
  | assign n key value next ih =>
    exact .head (s := s) (u := s.setExport n key value) rfl (ih hb hforwards h)
  | remember change next ih =>
    exact .head (s := s) (u := { s with memory := change s.memory }) rfl (ih hb hforwards h)
  | inspect next ih =>
    rw [Body.run, (hb s).1]
    exact ih s (hb s).2 (hforwards s) h
  | resolve reference next ih =>
    rw [Body.run, resolve_strictly hobserver]
    exact .head (cycles_of_resolve rfl) (ih _ (hb _) (hforwards _) h)
  | require reference next ih =>
    have hstrict := resolve_strictly hobserver s reference (some m)
    obtain ⟨error, u, hu, h⟩ | ⟨n, u, result, v, hu, hv, h⟩ := Body.run_require_cases h
    · rw [hu] at hstrict
      rw [Body.run_refuse hstrict]
      exact .head (cycles_of_resolve hu) (ih _ (hb _) (hforwards.2 error).forwards h)
    · rw [hu] at hstrict
      rw [Body.run_call hstrict]
      have hnext : (next (result.map fun _ ↦ n)).Forwards m := by
        cases result with
        | error error => exact (hforwards.2 error).forwards
        | ok => exact hforwards.1 n
      have hrest := ih _ (hb _) hnext h
      apply Mirrors.head (cycles_of_resolve hu)
      -- After a cycle the other run passes the error on, whatever this one requires next.
      exact (hexecute _ _ _ _ hv).bind
        (fun result v ↦ (next (result.map fun _ ↦ n)).run observer execute m v) hrest
        fun identifier v ↦ run_of_raises (hforwards.2 _) v

namespace Session

theorem execute_mirrors (hhooks : hooks.Indifferent) (hforwards : hooks.Forwards) {depth : Nat}
    {m : ModuleId} {r : Except SessionError Unit} (h : execute hooks depth s m = some (r, t)) :
    Mirrors s r t (execute hooks depth s.strictly m) := by
  induction depth using Nat.strongRecOn generalizing s t m r with
  | ind depth ih =>
    have hstate : s.strictly.stateOf m = s.stateOf m := rfl
    obtain ⟨hm, rfl, rfl⟩ | ⟨hm, hc⟩ | ⟨hm, d, result, u, rfl, hu, hs⟩ := execute_cases h
    · rw [execute_executed (hstate.trans hm)]
      exact .same rfl
    · rw [execute_executing (hstate.trans hm)]
      exact mirrors_meetCycle hc
    · rw [execute_unexecuted (hstate.trans hm)]
      have hbody : hooks.body (s.strictly.begin m) m = hooks.body (s.begin m) m :=
        hhooks.body (s.begin m) m
      rw [hbody]
      have hexecute (s : Session μ) (n : ModuleId) (r : Except SessionError Unit) (t : Session μ)
          (h : execute hooks d s n = some (r, t)) : Mirrors s r t (execute hooks d s.strictly n) :=
        ih d (Nat.lt_succ_self d) h
      have hrun := Body.run_mirrors hhooks.observer hexecute (hhooks.rest _ m) (hforwards _ m) hu
      exact (hrun.settle hs).head (s.cycles_begin m)

/-- A require that met no cycle does the same where cycles are errors; one that met cycles fails
there with the first of them. -/
theorem require_mirrors (hhooks : hooks.Indifferent) (hforwards : hooks.Forwards)
    {reference : String} {origin : Option ModuleId} {run : Bool}
    {r : Except SessionError ModuleId} (h : s.require hooks reference origin run = some (r, t)) :
    Mirrors s r t (s.strictly.require hooks reference origin run) := by
  have hstrict := resolve_strictly hhooks.observer s reference origin
  obtain ⟨error, hu, rfl⟩ | ⟨m, u, hu, hrest⟩ := require_cases h
  · unfold Session.require
    rw [hstrict, hu]
    exact .same (cycles_of_resolve hu)
  · apply Mirrors.head (cycles_of_resolve hu)
    rw [hu] at hstrict
    obtain ⟨rfl, rfl, rfl⟩ | ⟨rfl, result, hresult, rfl⟩ := hrest
    · unfold Session.require
      rw [hstrict]
      exact .same rfl
    · have hexecute : Mirrors u result t (u.strictly.executeModule hooks m) := by
        unfold executeModule
        rw [hhooks.depth]
        exact execute_mirrors hhooks hforwards hresult
      rw [require_of_resolve hstrict, Option.map_eq_bind]
      exact hexecute.bind (fun result v ↦ some (result.map fun _ ↦ m, v)) (.same rfl)
        fun _ _ ↦ ⟨_, rfl⟩

end Session

end Run

end Lading
