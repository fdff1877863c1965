import Lading.Proofs.DataModule.Body
import Lading.Proofs.Files.Tree
import Mathlib.Data.List.ProdSigma

namespace Lading.DataModule

variable {μ : Type}

def packageNamed? (reference : String) : Option String :=
  (Reference.parse reference).toOption.map (·.package.fullName)

def packageNames (s : Session μ) : List String :=
  s.packages.keys ++ (references s.files).filterMap packageNamed?

/-- What bounds the modules that run: their packages have given names, and their files can be
read. -/
structure Bounded (names : List String) (files : FileTree) (s : Session μ) : Prop
    extends s.Sound where
  files : s.files = files
  registered : ∀ name, (s.package? name).isSome → name ∈ names
  stack : ∀ m ∈ s.stack, (fields? s m).isSome

def spot (s : Session μ) (m : ModuleId) : String × List (List Char) :=
  (((s.packageOf? m).map (·.name)).getD "",
    s.files.landing ((s.pathOf? m).getD "" ++ ".json"))

theorem file_of_fields? {s : Session μ} {m : ModuleId} (h : (fields? s m).isSome) :
    ∃ p directory place bytes, s.packageOf? m = some p ∧ p.manifest.directory = some directory ∧
      s.files.landing (FileTree.fileBelow directory (s.nameOf m)) = place ∧
      spot s m = (p.name, place) ∧ (place, .file bytes) ∈ s.files.nodes ∧
      fieldsOf? (Text.decodeUtf8 bytes) = fields? s m := by
  cases hp : s.packageOf? m with
  | none => simp [fields?, Session.pathOf?, hp] at h
  | some p =>
    cases hd : p.manifest.directory with
    | none => simp [fields?, Session.pathOf?, hp, hd] at h
    | some directory =>
      have hspot : spot s m =
          (p.name, s.files.landing (FileTree.fileBelow directory (s.nameOf m))) := by
        simp [spot, Session.pathOf?, hp, hd, FileTree.fileBelow]
      have hfields : fields? s m =
          (s.files.read (FileTree.fileBelow directory (s.nameOf m))).toOption.bind fieldsOf? := by
        simp [fields?, Session.pathOf?, hp, hd, FileTree.fileBelow]
      cases hread : s.files.read (FileTree.fileBelow directory (s.nameOf m)) with
      | error fault => simp [hfields, hread, Except.toOption] at h
      | ok text =>
        obtain ⟨bytes, hbytes, rfl⟩ := FileTree.mem_of_read hread
        refine ⟨p, directory, _, bytes, rfl, hd, rfl, hspot, hbytes, ?_⟩
        simp [hfields, hread, Except.toOption]

theorem spot_inj {s : Session μ} (hs : s.Coherent) {m n : ModuleId} (hm : (fields? s m).isSome)
    (hn : (fields? s n).isSome) (h : spot s m = spot s n) : m = n := by
  obtain ⟨p, directory, _, _, hp, hd, rfl, hspot, -⟩ := file_of_fields? hm
  obtain ⟨q, directory', _, _, hq, hd', rfl, hspot', -⟩ := file_of_fields? hn
  rw [hspot, hspot', Prod.mk.injEq] at h
  obtain ⟨hname, hplace⟩ := h
  have hpq := hs.package?_of_packageOf? hp
  rw [hname, hs.package?_of_packageOf? hq] at hpq
  cases hpq
  rw [hd] at hd'
  cases hd'
  have hnames := FileTree.eq_of_landing (hs.isName_nameOf (Session.knows_of_packageOf? hp))
    (hs.isName_nameOf (Session.knows_of_packageOf? hq)) hplace
  obtain ⟨_, hp', hcached⟩ := hs.packageOf? (Session.knows_of_packageOf? hp)
  obtain ⟨_, hq', hcached'⟩ := hs.packageOf? (Session.knows_of_packageOf? hq)
  rw [hp] at hp'
  rw [hq] at hq'
  cases hp'
  cases hq'
  rw [hnames, hcached'] at hcached
  exact (Option.some.inj hcached).symm

/-- No more modules run than there are pairs of a package and a file. -/
theorem Bounded.stack_length_le {names : List String} {files : FileTree} {s : Session μ}
    (hs : Bounded names files s) : s.stack.length ≤ names.length * files.nodes.length := by
  have hnodup : (s.stack.map (spot s)).Nodup :=
    hs.faithful.stack_nodup.map_on fun m hm n hn h ↦
      spot_inj hs.coherent (hs.stack m hm) (hs.stack n hn) h
  have hsubset : s.stack.map (spot s) ⊆ names ×ˢ files.nodes.map (·.1) := by
    intro x hx
    obtain ⟨m, hm, rfl⟩ := List.mem_map.1 hx
    obtain ⟨p, _, place, bytes, hp, -, -, hspot, hmem, -⟩ := file_of_fields? (hs.stack m hm)
    have hname : p.name ∈ names :=
      hs.registered p.name (by simp [hs.coherent.package?_of_packageOf? hp])
    rw [hs.files] at hmem
    rw [hspot]
    exact List.mem_product.2 ⟨hname, List.mem_map.2 ⟨_, hmem, rfl⟩⟩
  have hlength := hnodup.length_le_of_subset hsubset
  simpa [List.length_product] using hlength

def Returns {α : Type} (Q : Session μ → Prop) (run : Run μ α) : Prop :=
  ∃ r t, run = some (r, t) ∧ Q t

theorem Returns.settle {P Q : Session μ → Prop} {run : Run μ Unit} {m : ModuleId}
    (h : Returns P run) (hpq : ∀ u r, P u → Q (u.settle m r).2) :
    Returns Q (run.map fun (result, u) ↦ u.settle m result) := by
  obtain ⟨r, u, rfl, hu⟩ := h
  exact ⟨(u.settle m r).1, (u.settle m r).2, rfl, hpq u r hu⟩

section Run

variable {observer : Option (Observer μ)} {execute : Session μ → ModuleId → Run μ Unit}
  {m : ModuleId} {Q : Session μ → Prop} {s : Session μ}

theorem returns_requireAll {path : String} {next : Body μ} {items : List Json} (hs : Q s)
    (hresolve : ∀ s reference r u, Q s → .string reference ∈ items →
      s.resolve observer reference (some m) = (r, u) → Q u ∧ ∀ n, r = .ok n → u.Knows n)
    (hexecute : ∀ s n, Q s → s.Knows n → Returns Q (execute s n))
    (hnext : ∀ s, Q s → Returns Q (next.run observer execute m s)) :
    Returns Q ((requireAll path next items).run observer execute m s) := by
  induction items generalizing s with
  | nil => exact hnext s hs
  | cons item items ih =>
    have hrest : ∀ s reference r u, Q s → .string reference ∈ items →
        s.resolve observer reference (some m) = (r, u) → Q u ∧ ∀ n, r = .ok n → u.Knows n :=
      fun s reference r u hs hm ↦ hresolve s reference r u hs (List.mem_cons_of_mem _ hm)
    cases item with
    | string reference =>
      simp only [requireAll, Body.run]
      split
      · rename_i error u hu
        obtain ⟨hu, -⟩ := hresolve s reference _ u hs (List.mem_cons_self ..) hu
        exact ⟨_, u, rfl, hu⟩
      · rename_i n u hu
        obtain ⟨hu, hknows⟩ := hresolve s reference _ u hs (List.mem_cons_self ..) hu
        obtain ⟨r, v, hrun, hv⟩ := hexecute u n hu (hknows n rfl)
        rw [hrun]
        cases r with
        | error error => exact ⟨_, v, rfl, hv⟩
        | ok => exact ih hv hrest
    | _ => exact ⟨_, s, rfl, hs⟩

theorem returns_exportAll {fields : Json.Fields} (hs : Q s)
    (hexport : ∀ s key value, Q s → Q (s.setExport m key value)) :
    Returns Q ((exportAll m fields).run observer execute m s) := by
  induction fields generalizing s with
  | nil => exact ⟨_, s, rfl, hs⟩
  | cons field fields ih => exact ih (hexport s _ _ hs)

theorem returns_ofFields {path : String} {fields : Json.Fields} (hs : Q s)
    (hresolve : ∀ s reference r u, Q s → reference ∈ requirements fields →
      s.resolve observer reference (some m) = (r, u) → Q u ∧ ∀ n, r = .ok n → u.Knows n)
    (hexecute : ∀ s n, Q s → s.Knows n → Returns Q (execute s n))
    (hexport : ∀ s key value, Q s → Q (s.setExport m key value)) :
    Returns Q ((ofFields m path fields).run observer execute m s) := by
  unfold ofFields
  split
  · exact returns_exportAll hs hexport
  · rename_i items hitems
    refine returns_requireAll hs (fun s reference r u hs hm ↦ hresolve s reference r u hs ?_)
      hexecute fun s hs ↦ returns_exportAll hs hexport
    rw [requirements, hitems]
    exact List.mem_filterMap.2 ⟨_, hm, rfl⟩
  · exact ⟨_, s, rfl, hs⟩

end Run

section Bounded

variable {names : List String} {files : FileTree} {s t : Session μ}

theorem Bounded.later (hs : Bounded names files s) (ht : t.Sound) (h : s.Later t)
    (hstack : t.stack ⊆ s.stack) (hregistered : ∀ name, (t.package? name).isSome → name ∈ names) :
    Bounded names files t := by
  refine ⟨ht, h.files.trans hs.files, hregistered, ?_⟩
  intro m hm
  have executing := hs.faithful.mem_stack.1 (hstack hm)
  rw [fields?_extends hs.coherent h.toExtends (Session.knows_of_stateOf executing (by decide))]
  exact hs.stack m (hstack hm)

theorem Bounded.resolve (hs : Bounded names files s) {observer : Option (Observer μ)}
    {reference : String} {origin : Option ModuleId} {r : Except SessionError ModuleId}
    (hname : ∀ name, packageNamed? reference = some name → name ∈ names)
    (h : s.resolve observer reference origin = (r, t)) :
    Bounded names files t ∧ ∀ n, r = .ok n → t.Knows n := by
  have hc := Session.changes_of_resolve hs.coherent h
  have ht := hs.toSound.changes hc
  have hregistered : ∀ name, (t.package? name).isSome → name ∈ names := by
    intro name hp
    obtain hp | ⟨named, _, hparse, rfl, -⟩ := Session.registered_of_resolve hs.coherent.named h hp
    · exact hs.registered name hp
    · exact hname _ (by simp [packageNamed?, hparse, Except.toOption])
  refine ⟨hs.later ht hc.quiet.later (fun m hm ↦ hc.quiet.stack ▸ hm) hregistered, ?_⟩
  rintro n rfl
  exact Session.knows_of_resolve hs.coherent h

theorem Bounded.setExport (hs : Bounded names files s) (m : ModuleId) (key : String)
    (value : Json) : Bounded names files (s.setExport m key value) :=
  hs.later (hs.toSound.setExport m key value) (s.later_setExport m key value)
    (List.Subset.refl _) hs.registered

theorem Bounded.begin (hs : Bounded names files s) {m : ModuleId} (hm : s.Knows m)
    (h : s.stateOf m = .unexecuted) (hfile : (fields? s m).isSome) :
    Bounded names files (s.begin m) := by
  have hfields {n : ModuleId} (hn : s.Knows n) : fields? (s.begin m) n = fields? s n :=
    fields?_extends hs.coherent (s.extends_begin m) hn
  refine ⟨hs.toSound.begin hm h, hs.files, hs.registered, ?_⟩
  intro n hn
  rcases List.mem_append.1 (show n ∈ s.stack ++ [m] from hn) with hn | hn
  · have executing := hs.faithful.mem_stack.1 hn
    rw [hfields (Session.knows_of_stateOf executing (by decide))]
    exact hs.stack n hn
  · rw [List.mem_singleton.1 hn, hfields hm]
    exact hfile

theorem Bounded.settle (hs : Bounded names files s) {m : ModuleId}
    (hm : s.stack.getLast? = some m) (r : Except SessionError Unit) :
    Bounded names files (s.settle m r).2 := by
  refine hs.later (hs.toSound.settle hm r) (s.later_settle m r) ?_ ?_
  · rw [s.stack_settle m r]
    exact List.dropLast_subset _
  · cases r <;> exact hs.registered

theorem mem_references {m : ModuleId} {fields : Json.Fields} {reference : String}
    (hfields : fields? s m = some fields) (hr : reference ∈ requirements fields) :
    reference ∈ references s.files := by
  obtain ⟨_, _, place, bytes, -, -, -, -, hmem, hread⟩ := file_of_fields? (by rw [hfields]; rfl)
  refine List.mem_flatMap.2 ⟨_, hmem, ?_⟩
  simpa [referencesOf, hread, hfields] using hr

theorem Bounded.fail (hs : Bounded names files s) {m : ModuleId} (hm : s.Knows m)
    (h : s.stateOf m = .unexecuted) (error : SessionError) :
    Bounded names files ((s.begin m).settle m (.error error)).2 := by
  refine hs.later ((hs.toSound.begin hm h).settle (by simp [Session.stack_begin]) _)
    ((s.later_begin m).trans ((s.begin m).later_settle m _)) (fun n hn ↦ ?_) hs.registered
  rwa [Session.stack_settle, Session.stack_begin, List.dropLast_concat] at hn

theorem Bounded.meetCycle (hs : Bounded names files s) (m : ModuleId) :
    Bounded names files (s.meetCycle m).2 ∧ (s.meetCycle m).2.stack = s.stack := by
  have hc : s.Changes (s.meetCycle m).2 := Session.changes_of_meetCycle rfl
  refine ⟨hs.later (hs.toSound.changes hc) hc.quiet.later (fun n hn ↦ hc.quiet.stack ▸ hn) ?_,
    hc.quiet.stack⟩
  unfold Session.meetCycle
  dsimp only
  split <;> exact hs.registered

theorem Bounded.ofFields {execute : Session μ → ModuleId → Run μ Unit} {m : ModuleId}
    {stack : List ModuleId} {path : String} {fields : Json.Fields} (hs : Bounded names files s)
    (hstack : s.stack = stack) (observer : Option (Observer μ))
    (hnames : ∀ reference ∈ references files, ∀ name, packageNamed? reference = some name →
      name ∈ names)
    (hexecute : ∀ s n, Bounded names files s → s.stack = stack → s.Knows n →
      Returns (fun t ↦ Bounded names files t ∧ t.stack = stack) (execute s n))
    (hfields : fields? s m = some fields) :
    Returns (fun t ↦ Bounded names files t ∧ t.stack = stack)
      ((DataModule.ofFields m path fields).run observer execute m s) := by
  apply returns_ofFields ⟨hs, hstack⟩
  · rintro v reference r u ⟨hv, hstack⟩ hr hu
    have hreference := mem_references hfields hr
    rw [hs.files] at hreference
    obtain ⟨hu', hknows⟩ := hv.resolve (hnames reference hreference) hu
    have hc := Session.changes_of_resolve hv.coherent hu
    exact ⟨⟨hu', hc.quiet.stack.trans hstack⟩, hknows⟩
  · rintro v n ⟨hv, hstack⟩ hn
    exact hexecute v n hv hstack hn
  · rintro v key value ⟨hv, hstack⟩
    exact ⟨hv.setExport m key value, hstack⟩

/-- A module runs to its end with room for as many modules inside each other as are left. -/
theorem Bounded.execute {depth : Nat} {m : ModuleId} (hs : Bounded names files s)
    (observer : Option (Observer μ)) (hm : s.Knows m)
    (hnames : ∀ reference ∈ references files, ∀ name, packageNamed? reference = some name →
      name ∈ names)
    (hdepth : names.length * files.nodes.length < s.stack.length + depth) :
    Returns (fun t ↦ Bounded names files t ∧ t.stack = s.stack)
      (Session.execute (hooks observer) depth s m) := by
  induction depth generalizing s m with
  | zero =>
    have hlength := hs.stack_length_le
    omega
  | succ depth ih =>
    cases hstate : s.stateOf m with
    | executed =>
      rw [Session.execute_executed hstate]
      exact ⟨_, s, rfl, hs, rfl⟩
    | executing =>
      rw [Session.execute_executing hstate]
      exact ⟨_, _, rfl, hs.meetCycle m⟩
    | unexecuted =>
      rw [Session.execute_unexecuted hstate]
      change Returns _ (Option.map _ ((body (s.begin m) m).run observer _ m _))
      obtain ⟨error, hbody, -⟩ | ⟨path, fields, hbody, hfields⟩ := body_cases (s.begin m) m
      · rw [hbody]
        refine ⟨_, ((s.begin m).settle m (.error error)).2, rfl, hs.fail hm hstate error, ?_⟩
        rw [Session.stack_settle, Session.stack_begin, List.dropLast_concat]
      · have hfile : (fields? s m).isSome := by
          rw [← fields?_extends hs.coherent (s.extends_begin m) hm, hfields]
          rfl
        have hbegin := hs.begin hm hstate hfile
        have hrun : Returns (fun t ↦ Bounded names files t ∧ t.stack = s.stack ++ [m])
            ((DataModule.ofFields m path fields).run observer
              (Session.execute (hooks observer) depth) m (s.begin m)) := by
          apply hbegin.ofFields (Session.stack_begin s m) observer hnames ?_ hfields
          intro v n hv hstack hn
          rw [← hstack]
          apply ih hv hn
          rw [hstack, List.length_append, List.length_singleton]
          omega
        rw [hbody]
        apply hrun.settle
        rintro u r ⟨hu, hstack⟩
        refine ⟨hu.settle (by simp [hstack]) r, ?_⟩
        rw [Session.stack_settle, hstack, List.dropLast_concat]

end Bounded

theorem bounded_packageNames {s : Session μ} (hs : s.Sound) (hstack : s.stack = []) :
    Bounded (packageNames s) s.files s := by
  refine ⟨hs, rfl, ?_, ?_⟩
  · intro name hname
    exact List.mem_append_left _ ((Entries.mem_keys _ name).2 hname)
  · intro m hm
    rw [hstack] at hm
    cases hm

theorem returns_executeModule {s : Session μ} (hs : s.Sound) (hstack : s.stack = [])
    (observer : Option (Observer μ)) {m : ModuleId} (hm : s.Knows m) :
    ∃ r t, s.executeModule (hooks observer) m = some (r, t) := by
  have hlength : (packageNames s).length ≤ s.packages.length + (references s.files).length := by
    have hfilter := List.length_filterMap_le packageNamed? (references s.files)
    simp only [packageNames, List.length_append, Entries.keys, List.length_map]
    omega
  have hbound := Nat.mul_le_mul_right s.files.nodes.length hlength
  have hnames : ∀ reference ∈ references s.files, ∀ name, packageNamed? reference = some name →
      name ∈ packageNames s := fun reference hr name hname ↦
    List.mem_append_right _ (List.mem_filterMap.2 ⟨reference, hr, hname⟩)
  have hdepth : (packageNames s).length * s.files.nodes.length < s.stack.length + depth s := by
    rw [depth]
    omega
  obtain ⟨r, t, ht, -⟩ := (bounded_packageNames hs hstack).execute observer hm hnames hdepth
  exact ⟨r, t, ht⟩

theorem returns_require {s : Session μ} (hs : s.Sound) (hstack : s.stack = [])
    (observer : Option (Observer μ)) (reference : String) (origin : Option ModuleId) (run : Bool) :
    ∃ r t, s.require (hooks observer) reference origin run = some (r, t) := by
  unfold Session.require
  split
  · exact ⟨_, _, rfl⟩
  · rename_i m u hu
    split
    · have hc := Session.changes_of_resolve hs.coherent hu
      obtain ⟨r, t, ht⟩ := returns_executeModule (hs.changes hc) (hc.quiet.stack.trans hstack)
        observer (Session.knows_of_resolve hs.coherent hu)
      rw [ht]
      cases r <;> exact ⟨_, _, rfl⟩
    · exact ⟨_, _, rfl⟩

end Lading.DataModule
