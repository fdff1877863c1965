import Lading.Proofs.Results
import Lading.Proofs.Session.Invariant

namespace Lading

variable {μ : Type}

namespace Point

variable {hooks : Hooks μ} {p q q' : Point μ}

/-- The error that comes up at a point of a run: a reference that does not resolve, a cycle that is
not allowed, or a complaint of a body. -/
def fault? (hooks : Hooks μ) (p : Point μ) : Option SessionError :=
  match p.control with
  | .body m (.require reference _) =>
    error? (p.session.resolve hooks.observer reference (some m)).1
  | .body _ (.fail error) => some error
  | .enter m =>
    if p.session.stateOf m = .executing then error? (p.session.meetCycle m).1 else none
  | _ => none

structure Smooth (hooks : Hooks μ) (p q : Point μ) : Prop where
  step : Step hooks p q
  inside : p.control ≠ .host
  faultless : p.fault? hooks = none

abbrev Smoothly (hooks : Hooks μ) : Point μ → Point μ → Prop := Relation.ReflTransGen (Smooth hooks)

theorem Smoothly.steps (h : Smoothly hooks p q) : Steps hooks p q := by
  induction h with
  | refl => exact .refl
  | tail _ h ih => exact ih.tail h.step

theorem Step.smooth (h : Step hooks p q) (inside : p.control ≠ .host)
    (faultless : p.fault? hooks = none) : Smoothly hooks p q :=
  .single ⟨h, inside, faultless⟩

theorem Smoothly.journal (h : Smoothly hooks p q) (hp : p.Sound) :
    ∃ g : History, q.session.journal = p.session.journal ++ g ∧ ∀ n, .failed n ∉ g := by
  have quiet {s t : Session μ} (h : Session.Changes s t) :
      ∃ g : History, t.journal = s.journal ++ g ∧ ∀ n, .failed n ∉ g := by
    obtain ⟨g, hg, quiet⟩ := h.quiet.journal
    exact ⟨g, hg, fun _ ↦ History.notMem_quiet quiet rfl⟩
  induction h with
  | refl => exact ⟨[], (List.append_nil _).symm, by simp⟩
  | @tail p' q' hsmooth h ih =>
    have hs : p'.Sound := (Smoothly.steps hsmooth).sound hp
    have one : ∃ g : History, q'.session.journal = p'.session.journal ++ g ∧
        ∀ n, .failed n ∉ g := by
      obtain ⟨hstep, inside, faultless⟩ := h
      cases hstep with
      | load | add | find | require | execute => cases inside rfl
      | fail => cases faultless
      | start => exact ⟨[.started _], rfl, by simp⟩
      | finish s w m => exact ⟨[.finished m], rfl, by simp⟩
      | cycle => exact quiet (Session.changes_of_meetCycle rfl)
      | resolve => exact quiet (Session.changes_of_resolve hs.coherent rfl)
      | refuse h | call h => exact quiet (Session.changes_of_resolve hs.coherent h)
      | assign | remember | inspect | pass | resume | answer =>
        exact ⟨[], (List.append_nil _).symm, by simp⟩
    obtain ⟨g, hg, hfailed⟩ := ih
    obtain ⟨g', hg', hfailed'⟩ := one
    exact ⟨g ++ g', by rw [hg', hg, List.append_assoc], by simp [hfailed, hfailed']⟩

/-- Only the host has a choice. -/
theorem Step.unique (inside : p.control ≠ .host) (h : Step hooks p q) (h' : Step hooks p q') :
    q = q' := by
  cases h with
  | load | add | find | require | execute => cases inside rfl
  | pass h =>
    cases h' with
    | pass => rfl
    | cycle h' | start h' => cases h.symm.trans h'
  | cycle h =>
    cases h' with
    | cycle => rfl
    | pass h' | start h' => cases h.symm.trans h'
  | start h =>
    cases h' with
    | start => rfl
    | pass h' | cycle h' => cases h.symm.trans h'
  | refuse h =>
    cases h' with
    | refuse h' =>
      cases h.symm.trans h'
      rfl
    | call h' => cases h.symm.trans h'
  | call h =>
    cases h' with
    | refuse h' => cases h.symm.trans h'
    | call h' =>
      cases h.symm.trans h'
      rfl
  | assign | remember | inspect | resolve | finish | fail | resume | answer =>
    cases h'
    rfl

/-- A request that ran smoothly to an error and ended goes on to its end from there. -/
theorem Smoothly.continues (h : Smoothly hooks p q) {cause : SessionError}
    (hfault : q.fault? hooks = some cause) {s : Session μ} {result : Except SessionError Unit}
    (hend : Steps hooks p ⟨s, [], .leave result⟩) : Steps hooks q ⟨s, [], .leave result⟩ := by
  induction h using Relation.ReflTransGen.head_induction_on with
  | refl => exact hend
  | @head p p' h hrest ih =>
    rcases hend.cases_head with heq | ⟨p'', hstep, hend⟩
    · -- The run ended, so that the host has control afterwards.
      subst heq
      cases h.step with
      | answer =>
        rcases hrest.cases_head with heq | ⟨_, hhost, -⟩
        · subst heq
          cases hfault
        · cases hhost.inside rfl
    · rw [Step.unique h.inside hstep h.step] at hend
      exact ih hend

section Smooth

variable {s t u : Session μ} {w : List (Waiting μ)} {m n : ModuleId} {reference : String}
  {next : Except SessionError ModuleId → Body μ}

theorem smooth_assign (n : ModuleId) (key : String) (value : Json) (rest : Body μ) :
    Smoothly hooks ⟨s, w, .body m (.assign n key value rest)⟩
      ⟨s.setExport n key value, w, .body m rest⟩ :=
  (Step.assign s w m n key value rest).smooth nofun rfl

theorem smooth_remember (change : μ → μ) (rest : Body μ) :
    Smoothly hooks ⟨s, w, .body m (.remember change rest)⟩
      ⟨{ s with memory := change s.memory }, w, .body m rest⟩ :=
  (Step.remember s w m change rest).smooth nofun rfl

theorem smooth_inspect (rest : Session μ → Body μ) :
    Smoothly hooks ⟨s, w, .body m (.inspect rest)⟩ ⟨s, w, .body m (rest s)⟩ :=
  (Step.inspect s w m rest).smooth nofun rfl

theorem smooth_resolve :
    Smoothly hooks ⟨s, w, .body m (.resolve reference next)⟩
      ⟨(s.resolve hooks.observer reference (some m)).2, w,
        .body m (next (s.resolve hooks.observer reference (some m)).1)⟩ :=
  (Step.resolve s w m reference next).smooth nofun rfl

theorem smooth_call (h : s.resolve hooks.observer reference (some m) = (.ok n, u)) :
    Smoothly hooks ⟨s, w, .body m (.require reference next)⟩ ⟨u, ⟨m, n, next⟩ :: w, .enter n⟩ :=
  (Step.call h).smooth nofun (by simp [fault?, h, error?])

theorem smooth_resume :
    Smoothly hooks ⟨s, ⟨m, n, next⟩ :: w, .leave (.ok ())⟩ ⟨s, w, .body m (next (.ok n))⟩ :=
  (Step.resume s w m n next (.ok ())).smooth nofun rfl

theorem smooth_pass (h : s.stateOf m = .executed) :
    Smoothly hooks ⟨s, w, .enter m⟩ ⟨s, w, .leave (.ok ())⟩ :=
  (Step.pass h).smooth nofun (by simp [fault?, h])

theorem smooth_cycle (hm : s.stateOf m = .executing) (h : s.meetCycle m = (.ok (), t)) :
    Smoothly hooks ⟨s, w, .enter m⟩ ⟨t, w, .leave (.ok ())⟩ :=
  (Step.of_meetCycle hm h).smooth nofun (by simp [fault?, hm, h, error?])

theorem smooth_start (h : s.stateOf m = .unexecuted) :
    Smoothly hooks ⟨s, w, .enter m⟩ ⟨s.begin m, w, .body m (hooks.body (s.begin m) m)⟩ :=
  (Step.start h).smooth nofun (by simp [fault?, h])

theorem smooth_finish (h : s.settle m (.ok ()) = (.ok (), t)) :
    Smoothly hooks ⟨s, w, .body m .finish⟩ ⟨t, w, .leave (.ok ())⟩ := by
  have hstep : Step hooks ⟨s, w, .body m (.ending (.ok ()))⟩ ⟨t, w, .leave (.ok ())⟩ := .of_settle h
  exact hstep.smooth nofun rfl

end Smooth

end Point

end Lading
