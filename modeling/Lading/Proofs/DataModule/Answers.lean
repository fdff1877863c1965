import Lading.Proofs.DataModule.Body
import Lading.Proofs.Results

namespace Lading.DataModule

variable {μ : Type}

/-- A module completed, and another one did so before it or was running then. The latter happens
only where cycles are no error. -/
def Answered (s : Session μ) (m n : ModuleId) : Prop :=
  ∃ before after, s.journal = before ++ .finished m :: after ∧
    (.finished n ∈ before ∨ s.config.strictCycles = false ∧ n ∈ History.running before)

def RestsOn (s : Session μ) (m : ModuleId) : Prop :=
  ∃ fields, fields? s m = some fields ∧ ∀ reference ∈ requirements fields,
    ∃ n, s.Names (some m) reference n ∧ Answered s m n

/-- Every executed module has a file and rests on what it requires. -/
def Grounded (s : Session μ) : Prop := ∀ m, s.stateOf m = .executed → RestsOn s m

theorem Answered.later {s t : Session μ} (h : s.Later t) {m n : ModuleId}
    (hn : Answered s m n) : Answered t m n := by
  obtain ⟨before, after, hj, hbefore⟩ := hn
  obtain ⟨g, hg⟩ := h.journal
  exact ⟨before, after ++ g, by rw [hg, hj, List.append_assoc, List.cons_append],
    h.config ▸ hbefore⟩

theorem RestsOn.later {s t : Session μ} (hs : s.Coherent) (h : s.Later t) {m : ModuleId}
    (hm : s.Knows m) (hrests : RestsOn s m) : RestsOn t m := by
  obtain ⟨fields, hfields, hreferences⟩ := hrests
  refine ⟨fields, (fields?_extends hs h.toExtends hm).trans hfields, ?_⟩
  intro reference hr
  obtain ⟨n, hn, hanswered⟩ := hreferences reference hr
  exact ⟨n, hn.extends h.toExtends, hanswered.later h⟩

theorem Grounded.later {s t : Session μ} (hg : Grounded s) (hs : s.Sound) (h : s.Later t)
    (hstate : ∀ m, t.stateOf m = .executed → s.stateOf m = .executed) : Grounded t :=
  fun m hm ↦ (hg m (hstate m hm)).later hs.coherent h
    (Session.knows_of_stateOf (hstate m hm) (by decide))

theorem grounded_start (config : Config) (files : FileTree) (finders : List Finder) (memory : μ) :
    Grounded (.start config files finders memory) := by
  intro m hm
  rw [Session.stateOf_start] at hm
  cases hm

section Run

variable {hooks : Hooks μ} {depth : Nat} {s t : Session μ} {m : ModuleId}

theorem Requires.spec {references : List String} {ns : List ModuleId}
    (h : Requires hooks.observer (Session.execute hooks depth) m references ns s t) (hs : s.Sound) :
    t.Sound ∧ t.stack = s.stack ∧ s.Later t ∧
      List.Forall₂ (fun reference n ↦ t.Names (some m) reference n ∧
        (t.stateOf n = .executed ∨ t.config.strictCycles = false ∧ n ∈ t.stack)) references ns := by
  induction h with
  | nil s => exact ⟨hs, rfl, .refl s, .nil⟩
  | @cons s u v t reference references n ns hresolve hexecute hrest ih =>
    have hc := Session.changes_of_resolve hs.coherent hresolve
    have hu := hs.changes hc
    have hnames := Session.names_of_resolve hs.coherent hresolve
    obtain ⟨hv, hstack, hlater⟩ := Session.execute_sound hu (hnames.knows hu.coherent) hexecute
    obtain ⟨ht, hstack', hlater', hrest⟩ := ih hv
    have hstacks : t.stack = u.stack := hstack'.trans hstack
    refine ⟨ht, hstacks.trans hc.quiet.stack, (hc.quiet.later.trans hlater).trans hlater',
      .cons ⟨(hnames.extends hlater.toExtends).extends hlater'.toExtends, ?_⟩ hrest⟩
    by_cases hn : u.stateOf n = .executing
    · obtain ⟨hn', -⟩ | ⟨-, hcycle⟩ | ⟨hn', -⟩ := Session.execute_cases hexecute
      · exact absurd (hn.symm.trans hn') (by decide)
      · have hstrict := Session.strictCycles_of_meetCycle hcycle
        refine .inr ⟨(hlater.trans hlater').config ▸ hstrict, ?_⟩
        rw [hstacks, hu.faithful.mem_stack]
        exact hn
      · exact absurd (hn.symm.trans hn') (by decide)
    · have executed := Session.stateOf_execute hu (hnames.knows hu.coherent) hexecute hn
      exact .inl (hv.executed_later ht hlater' executed)

end Run

theorem sound_exporting {s : Session μ} (hs : s.Sound) (m : ModuleId) (fields : Json.Fields) :
    (exporting m fields s).Sound ∧ s.Later (exporting m fields s) ∧
      (exporting m fields s).stack = s.stack ∧
      ∀ n, (exporting m fields s).stateOf n = s.stateOf n := by
  induction fields generalizing s with
  | nil => exact ⟨hs, .refl s, rfl, fun _ ↦ rfl⟩
  | cons field fields ih =>
    obtain ⟨key, value⟩ := field
    obtain ⟨hsound, hlater, hstack, hstate⟩ := ih (hs.setExport m key value)
    exact ⟨hsound, (s.later_setExport m key value).trans hlater, hstack,
      fun n ↦ (hstate n).trans (s.stateOf_setExport m key value n)⟩

theorem restsOn_settle {hooks : Hooks μ} {depth : Nat} {s u : Session μ} {m : ModuleId}
    (hs : s.Sound) (hm : s.Knows m)
    (hu : (body s m).run hooks.observer (Session.execute hooks depth) m s = some (.ok (), u)) :
    RestsOn (u.settle m (.ok ())).2 m := by
  obtain ⟨fields, ns, v, hfields, hrequires, rfl⟩ := of_run hu
  obtain ⟨hv, hstack, hlater, hnames⟩ := hrequires.spec hs
  obtain ⟨hu, hlater', hstack', hstate⟩ := sound_exporting hv m (exported fields)
  have hlater'' := hlater'.trans (Session.later_settle _ m (.ok ()))
  have hfile := fields?_extends hs.coherent (hlater.trans hlater'').toExtends hm
  refine ⟨fields, hfile.trans hfields, ?_⟩
  intro reference hr
  obtain ⟨n, hn, hanswer⟩ := exists_of_forall₂ hnames hr
  refine ⟨n, hn.extends hlater''.toExtends, _, [], Session.journal_settle _ m (.ok ()), ?_⟩
  rcases hanswer with executed | ⟨hstrict, hrunning⟩
  · exact .inl (hu.faithful.finished_mem.2 ((hstate n).trans executed))
  · refine .inr ⟨hlater''.config ▸ hstrict, ?_⟩
    rw [← hu.faithful.stack, hstack']
    exact hrunning

theorem grounded_settle {s : Session μ} (hs : s.Sound) (hg : Grounded s) {m : ModuleId}
    (hm : s.Knows m) {r : Except SessionError Unit}
    (hrests : r = .ok () → RestsOn (s.settle m r).2 m) : Grounded (s.settle m r).2 := by
  intro n hn
  rw [s.stateOf_settle hm] at hn
  cases r with
  | error error =>
    have hstate : s.stateOf n = .executed := by
      by_cases hmn : m = n <;> simp_all [Session.ending, Event.settle]
    exact (hg n hstate).later hs.coherent (s.later_settle m _)
      (Session.knows_of_stateOf hstate (by decide))
  | ok =>
    by_cases hmn : m = n
    · exact hmn ▸ hrests rfl
    · have hstate : s.stateOf n = .executed := by simpa [Session.ending, Event.settle, hmn] using hn
      exact (hg n hstate).later hs.coherent (s.later_settle m _)
        (Session.knows_of_stateOf hstate (by decide))

theorem grounded_execute {observer : Option (Observer μ)} {depth : Nat} {s t : Session μ}
    {m : ModuleId} {r : Except SessionError Unit} (hs : s.Sound) (hg : Grounded s)
    (hm : s.Knows m) (h : Session.execute (hooks observer) depth s m = some (r, t)) :
    Grounded t := by
  induction depth using Nat.strongRecOn generalizing s t m r with
  | ind depth ih =>
    obtain ⟨-, -, rfl⟩ | ⟨-, hc⟩ | ⟨hm', d, result, u, rfl, hu, hsettle⟩ :=
      Session.execute_cases h
    · exact hg
    · have hquiet := (Session.changes_of_meetCycle hc).quiet
      exact hg.later hs hquiet.later fun n hn ↦ hquiet.states n ▸ hn
    · have hbegin := hs.begin hm hm'
      obtain ⟨hu', -, hlater⟩ := Session.run_sound hbegin (by simp [Session.stack_begin]) hu
      have hknows := (s.extends_begin m).knows hm
      have hgbegin : Grounded (s.begin m) := by
        apply hg.later hs (s.later_begin m)
        intro n hn
        rw [s.stateOf_begin hm] at hn
        by_cases hmn : m = n <;> simp_all [Event.settle]
      -- While the body runs, the executed modules are kept grounded by what runs inside.
      have hgu : Grounded u := by
        refine (Session.run_preserves (P := fun s ↦ s.Sound ∧ Grounded s) (fun _ h ↦ h.1) ?_ ?_
          ⟨hbegin, hgbegin⟩ hu).2
        · rintro s t ⟨hs, hg⟩ ht hlater hstate
          exact ⟨ht, hg.later hs hlater fun n hn ↦ hstate n ▸ hn⟩
        · rintro s t n r ⟨hs, hg⟩ hn hrun
          exact ⟨(Session.execute_sound hs hn hrun).1, ih d (Nat.lt_succ_self d) hs hg hn hrun⟩
      rw [← show (u.settle m result).2 = t from congrArg Prod.snd hsettle]
      refine grounded_settle hu' hgu (hlater.knows hknows) ?_
      rintro rfl
      exact restsOn_settle hbegin hknows hu

end Lading.DataModule
