import Lading.Session.Execute
import Lading.Proofs.Session.Resolution

namespace Lading

variable {μ : Type}

structure Waiting (μ : Type) where
  module : ModuleId
  required : ModuleId
  next : Except SessionError ModuleId → Body μ

/-- What comes next: a request of the host, a module that is to run unless it ran before, the rest
of the body of a module, or the end of a run of a module. -/
inductive Control (μ : Type)
  | host
  | enter (m : ModuleId)
  | body (m : ModuleId) (rest : Body μ)
  | leave (result : Except SessionError Unit)

/-- A point of a run. The innermost of the waiting bodies comes first. -/
structure Point (μ : Type) where
  session : Session μ
  waiting : List (Waiting μ)
  control : Control μ

namespace Point

def idle (s : Session μ) : Point μ := ⟨s, [], .host⟩

inductive Step (hooks : Hooks μ) : Point μ → Point μ → Prop
  | load (s : Session μ) (name : String) (selector : Option Selector) :
      Step hooks (idle s) (idle (s.loadPackage name selector).2)
  | add (s : Session μ) (manifest : Manifest) :
      Step hooks (idle s) (idle (s.addPackage manifest).2)
  | find (s : Session μ) (reference : String) (origin : Option ModuleId) :
      Step hooks (idle s) (idle (s.resolve hooks.observer reference origin).2)
  | require {s t : Session μ} {reference : String} {origin : Option ModuleId} {m : ModuleId}
      (h : s.resolve hooks.observer reference origin = (.ok m, t)) :
      Step hooks (idle s) ⟨t, [], .enter m⟩
  | execute {s : Session μ} {m : ModuleId} (h : s.Knows m) :
      Step hooks (idle s) ⟨s, [], .enter m⟩
  | pass {s : Session μ} {w : List (Waiting μ)} {m : ModuleId} (h : s.stateOf m = .executed) :
      Step hooks ⟨s, w, .enter m⟩ ⟨s, w, .leave (.ok ())⟩
  | cycle {s : Session μ} {w : List (Waiting μ)} {m : ModuleId} (h : s.stateOf m = .executing) :
      Step hooks ⟨s, w, .enter m⟩ ⟨(s.meetCycle m).2, w, .leave (s.meetCycle m).1⟩
  | start {s : Session μ} {w : List (Waiting μ)} {m : ModuleId} (h : s.stateOf m = .unexecuted) :
      Step hooks ⟨s, w, .enter m⟩ ⟨s.begin m, w, .body m (hooks.body (s.begin m) m)⟩
  | assign (s : Session μ) (w : List (Waiting μ)) (m n : ModuleId) (key : String) (value : Json)
      (next : Body μ) :
      Step hooks ⟨s, w, .body m (.assign n key value next)⟩
        ⟨s.setExport n key value, w, .body m next⟩
  | remember (s : Session μ) (w : List (Waiting μ)) (m : ModuleId) (change : μ → μ)
      (next : Body μ) :
      Step hooks ⟨s, w, .body m (.remember change next)⟩
        ⟨{ s with memory := change s.memory }, w, .body m next⟩
  | inspect (s : Session μ) (w : List (Waiting μ)) (m : ModuleId) (next : Session μ → Body μ) :
      Step hooks ⟨s, w, .body m (.inspect next)⟩ ⟨s, w, .body m (next s)⟩
  | resolve (s : Session μ) (w : List (Waiting μ)) (m : ModuleId) (reference : String)
      (next : Except SessionError ModuleId → Body μ) :
      Step hooks ⟨s, w, .body m (.resolve reference next)⟩
        ⟨(s.resolve hooks.observer reference (some m)).2, w,
          .body m (next (s.resolve hooks.observer reference (some m)).1)⟩
  | refuse {s t : Session μ} {w : List (Waiting μ)} {m : ModuleId} {reference : String}
      {next : Except SessionError ModuleId → Body μ} {error : SessionError}
      (h : s.resolve hooks.observer reference (some m) = (.error error, t)) :
      Step hooks ⟨s, w, .body m (.require reference next)⟩ ⟨t, w, .body m (next (.error error))⟩
  | call {s t : Session μ} {w : List (Waiting μ)} {m n : ModuleId} {reference : String}
      {next : Except SessionError ModuleId → Body μ}
      (h : s.resolve hooks.observer reference (some m) = (.ok n, t)) :
      Step hooks ⟨s, w, .body m (.require reference next)⟩ ⟨t, ⟨m, n, next⟩ :: w, .enter n⟩
  | finish (s : Session μ) (w : List (Waiting μ)) (m : ModuleId) :
      Step hooks ⟨s, w, .body m .finish⟩
        ⟨(s.settle m (.ok ())).2, w, .leave (s.settle m (.ok ())).1⟩
  | fail (s : Session μ) (w : List (Waiting μ)) (m : ModuleId) (error : SessionError) :
      Step hooks ⟨s, w, .body m (.fail error)⟩
        ⟨(s.settle m (.error error)).2, w, .leave (s.settle m (.error error)).1⟩
  | resume (s : Session μ) (w : List (Waiting μ)) (m n : ModuleId)
      (next : Except SessionError ModuleId → Body μ) (result : Except SessionError Unit) :
      Step hooks ⟨s, ⟨m, n, next⟩ :: w, .leave result⟩
        ⟨s, w, .body m (next (result.map fun _ ↦ n))⟩
  | answer (s : Session μ) (result : Except SessionError Unit) :
      Step hooks ⟨s, [], .leave result⟩ (idle s)

abbrev Steps (hooks : Hooks μ) : Point μ → Point μ → Prop := Relation.ReflTransGen (Step hooks)

end Point

open Point

def Body.ending : Except SessionError Unit → Body μ
  | .ok () => .finish
  | .error error => .fail error

section Require

variable {observer : Option (Observer μ)} {execute : Session μ → ModuleId → Run μ Unit}
  {m n : ModuleId} {reference : String} {next : Except SessionError ModuleId → Body μ}
  {s t u : Session μ}

theorem Body.run_refuse {error : SessionError}
    (h : s.resolve observer reference (some m) = (.error error, u)) :
    (Body.require reference next).run observer execute m s =
      (next (.error error)).run observer execute m u := by
  rw [Body.run, h]

theorem Body.run_call (h : s.resolve observer reference (some m) = (.ok n, u)) :
    (Body.require reference next).run observer execute m s =
      (execute u n).bind fun (result, v) ↦
        (next (result.map fun _ ↦ n)).run observer execute m v := by
  rw [Body.run, h]
  dsimp only
  split <;> simp [*] <;> rfl

theorem Body.run_require_cases {r : Except SessionError Unit}
    (h : (Body.require reference next).run observer execute m s = some (r, t)) :
    (∃ error u, s.resolve observer reference (some m) = (.error error, u) ∧
        (next (.error error)).run observer execute m u = some (r, t)) ∨
      ∃ n u result v, s.resolve observer reference (some m) = (.ok n, u) ∧
        execute u n = some (result, v) ∧
        (next (result.map fun _ ↦ n)).run observer execute m v = some (r, t) := by
  cases hr : s.resolve observer reference (some m) with
  | mk answer u =>
    cases answer with
    | error error =>
      rw [Body.run_refuse hr] at h
      exact .inl ⟨error, u, rfl, h⟩
    | ok n =>
      rw [Body.run_call hr, Option.bind_eq_some_iff] at h
      obtain ⟨⟨result, v⟩, hv, h⟩ := h
      exact .inr ⟨n, u, result, v, rfl, hv, h⟩

end Require

theorem Point.Step.of_meetCycle {hooks : Hooks μ} {s t : Session μ} {w : List (Waiting μ)}
    {m : ModuleId} {r : Except SessionError Unit} (hm : s.stateOf m = .executing)
    (h : s.meetCycle m = (r, t)) : Step hooks ⟨s, w, .enter m⟩ ⟨t, w, .leave r⟩ := by
  have hcycle : Step hooks ⟨s, w, .enter m⟩ _ := .cycle hm
  rwa [h] at hcycle

theorem Point.Step.of_settle {hooks : Hooks μ} {s t : Session μ} {w : List (Waiting μ)}
    {m : ModuleId} {result r : Except SessionError Unit} (h : s.settle m result = (r, t)) :
    Step hooks ⟨s, w, .body m (.ending result)⟩ ⟨t, w, .leave r⟩ := by
  cases result with
  | ok =>
    have hfinish : Step hooks ⟨s, w, .body m .finish⟩ _ := .finish s w m
    rwa [h] at hfinish
  | error error =>
    have hfail : Step hooks ⟨s, w, .body m (.fail error)⟩ _ := .fail s w m error
    rwa [h] at hfail

theorem Session.execute_executed {hooks : Hooks μ} {depth : Nat} {s : Session μ} {m : ModuleId}
    (h : s.stateOf m = .executed) : execute hooks depth s m = some (.ok (), s) := by
  unfold execute
  rw [h]

theorem Session.execute_executing {hooks : Hooks μ} {depth : Nat} {s : Session μ} {m : ModuleId}
    (h : s.stateOf m = .executing) : execute hooks depth s m = some (s.meetCycle m) := by
  unfold execute
  rw [h]

theorem Session.execute_unexecuted {hooks : Hooks μ} {depth : Nat} {s : Session μ} {m : ModuleId}
    (h : s.stateOf m = .unexecuted) :
    execute hooks (depth + 1) s m =
      ((hooks.body (s.begin m) m).run hooks.observer (execute hooks depth) m (s.begin m)).map
        fun (result, u) ↦ u.settle m result := by
  rw [execute, h]
  dsimp only
  split <;> simp [*]

theorem Session.execute_cases {hooks : Hooks μ} {depth : Nat} {s t : Session μ} {m : ModuleId}
    {r : Except SessionError Unit} (h : execute hooks depth s m = some (r, t)) :
    s.stateOf m = .executed ∧ r = .ok () ∧ t = s ∨
      s.stateOf m = .executing ∧ s.meetCycle m = (r, t) ∨
      s.stateOf m = .unexecuted ∧ ∃ d result u, depth = d + 1 ∧
        (hooks.body (s.begin m) m).run hooks.observer (execute hooks d) m (s.begin m) =
          some (result, u) ∧
        u.settle m result = (r, t) := by
  unfold execute at h
  split at h
  · rename_i hm
    cases h
    exact .inl ⟨hm, rfl, rfl⟩
  · rename_i hm
    exact .inr (.inl ⟨hm, Option.some.inj h⟩)
  · rename_i hm
    refine .inr (.inr ⟨hm, ?_⟩)
    cases depth with
    | zero => cases h
    | succ d =>
      dsimp only at h
      split at h
      · cases h
      · rename_i result u hu
        exact ⟨d, result, u, rfl, hu, Option.some.inj h⟩

theorem Body.run_mono {observer : Option (Observer μ)}
    {execute execute' : Session μ → ModuleId → Run μ Unit}
    (hexecute : ∀ {s n r t}, execute s n = some (r, t) → execute' s n = some (r, t))
    {m : ModuleId} {b : Body μ} {s t : Session μ} {r : Except SessionError Unit}
    (h : b.run observer execute m s = some (r, t)) :
    b.run observer execute' m s = some (r, t) := by
  induction b generalizing s with
  | finish | fail error => exact h
  | assign n key value next ih | remember change next ih => exact ih h
  | inspect next ih => exact ih s h
  | resolve reference next ih => exact ih _ h
  | require reference next ih =>
    obtain ⟨error, u, hr, h⟩ | ⟨n, u, result, v, hr, hv, h⟩ := Body.run_require_cases h
    · rw [Body.run_refuse hr]
      exact ih _ h
    · rw [Body.run_call hr, hexecute hv]
      exact ih _ h

theorem Session.execute_mono {hooks : Hooks μ} {depth depth' : Nat} {s t : Session μ}
    {m : ModuleId} {r : Except SessionError Unit} (h : execute hooks depth s m = some (r, t))
    (hle : depth ≤ depth') : execute hooks depth' s m = some (r, t) := by
  induction depth using Nat.strongRecOn generalizing s t m r depth' with
  | ind depth ih =>
    obtain ⟨hm, rfl, rfl⟩ | ⟨hm, hc⟩ | ⟨hm, d, result, u, rfl, hu, hs⟩ := execute_cases h
    · exact execute_executed hm
    · rw [execute_executing hm, hc]
    · obtain ⟨d', rfl⟩ : ∃ d', depth' = d' + 1 := ⟨depth' - 1, by omega⟩
      have hdeeper {s n r t} (h : execute hooks d s n = some (r, t)) :
          execute hooks d' s n = some (r, t) :=
        ih d (Nat.lt_succ_self d) h (Nat.le_of_succ_le_succ hle)
      rw [execute_unexecuted hm, Body.run_mono hdeeper hu]
      exact congrArg some hs

theorem Session.require_cases {hooks : Hooks μ} {s t : Session μ} {reference : String}
    {origin : Option ModuleId} {run : Bool} {r : Except SessionError ModuleId}
    (h : s.require hooks reference origin run = some (r, t)) :
    (∃ error, s.resolve hooks.observer reference origin = (.error error, t) ∧ r = .error error) ∨
      ∃ m u, s.resolve hooks.observer reference origin = (.ok m, u) ∧
        (run = false ∧ r = .ok m ∧ t = u ∨
          run = true ∧ ∃ result, u.executeModule hooks m = some (result, t) ∧
            r = result.map fun _ ↦ m) := by
  unfold Session.require at h
  split at h
  · rename_i error u hr
    cases h
    exact .inl ⟨error, hr, rfl⟩
  · rename_i m u hr
    refine .inr ⟨m, u, hr, ?_⟩
    cases run with
    | false =>
      cases h
      exact .inl ⟨rfl, rfl, rfl⟩
    | true =>
      refine .inr ⟨rfl, ?_⟩
      rw [if_pos rfl] at h
      split at h
      · cases h
      · rename_i error v hv
        cases h
        exact ⟨_, hv, rfl⟩
      · rename_i v hv
        cases h
        exact ⟨_, hv, rfl⟩

theorem Session.require_of_resolve {hooks : Hooks μ} {s u : Session μ} {reference : String}
    {origin : Option ModuleId} {m : ModuleId}
    (h : s.resolve hooks.observer reference origin = (.ok m, u)) :
    s.require hooks reference origin true =
      (u.executeModule hooks m).map fun (result, v) ↦ (result.map fun _ ↦ m, v) := by
  unfold Session.require
  rw [h]
  dsimp only
  rw [if_pos rfl]
  split <;> simp [*] <;> rfl

section Within

variable {hooks : Hooks μ} {R : Point μ → Point μ → Prop}
  (hR : ∀ p q, Step hooks p q → p.control ≠ .host ∨ q.control ≠ .host → R p q)

include hR

theorem Body.run_within {execute : Session μ → ModuleId → Run μ Unit}
    (hexecute : ∀ {s t n r}, execute s n = some (r, t) →
      ∀ w, Relation.ReflTransGen R ⟨s, w, .enter n⟩ ⟨t, w, .leave r⟩)
    {m : ModuleId} {b : Body μ} {s t : Session μ} {r : Except SessionError Unit}
    (h : b.run hooks.observer execute m s = some (r, t)) (w : List (Waiting μ)) :
    Relation.ReflTransGen R ⟨s, w, .body m b⟩ ⟨t, w, .body m (.ending r)⟩ := by
  have hstep {p q : Point μ} (h : Step hooks p q) (hp : p.control ≠ .host) : R p q :=
    hR p q h (.inl hp)
  induction b generalizing s with
  | finish | fail error =>
    cases h
    exact .refl
  | assign n key value next ih =>
    exact .head (hstep (.assign s w m n key value next) nofun) (ih h)
  | remember change next ih => exact .head (hstep (.remember s w m change next) nofun) (ih h)
  | inspect next ih => exact .head (hstep (.inspect s w m next) nofun) (ih s h)
  | resolve reference next ih =>
    exact .head (hstep (.resolve s w m reference next) nofun) (ih _ h)
  | require reference next ih =>
    obtain ⟨error, u, hr, h⟩ | ⟨n, u, result, v, hr, hv, h⟩ := Body.run_require_cases h
    · exact .head (hstep (.refuse hr) nofun) (ih _ h)
    · exact .head (hstep (.call hr) nofun)
        ((hexecute hv _).trans (.head (hstep (.resume v w m n next result) nofun) (ih _ h)))

/-- A run of a module that returns is a run from the point where the module is entered to the one
where it is left, with the same bodies waiting. -/
theorem Session.execute_within {depth : Nat} {s t : Session μ} {m : ModuleId}
    {r : Except SessionError Unit} (h : execute hooks depth s m = some (r, t))
    (w : List (Waiting μ)) :
    Relation.ReflTransGen R ⟨s, w, .enter m⟩ ⟨t, w, .leave r⟩ := by
  induction depth using Nat.strongRecOn generalizing s t m r w with
  | ind depth ih =>
    obtain ⟨hm, rfl, rfl⟩ | ⟨hm, hc⟩ | ⟨hm, d, result, u, rfl, hu, hs⟩ := execute_cases h
    · exact .single (hR _ _ (.pass hm) (.inl nofun))
    · exact .single (hR _ _ (Step.of_meetCycle hm hc) (.inl nofun))
    · have hrun := Body.run_within hR (fun h w ↦ ih d (Nat.lt_succ_self d) h w) hu w
      exact .head (hR _ _ (.start hm) (.inl nofun))
        (hrun.trans (.single (hR _ _ (Step.of_settle hs) (.inl nofun))))

theorem Session.require_within
    (hfind : ∀ s reference origin,
      R (idle s) (idle (s.resolve hooks.observer reference origin).2))
    {s t : Session μ} {reference : String} {origin : Option ModuleId} {run : Bool}
    {r : Except SessionError ModuleId} (h : s.require hooks reference origin run = some (r, t)) :
    Relation.ReflTransGen R (idle s) (idle t) := by
  have hfind := hfind s reference origin
  obtain ⟨error, hr, rfl⟩ | ⟨m, u, hr, ⟨-, rfl, rfl⟩ | ⟨-, result, hu, rfl⟩⟩ := require_cases h
  · rw [hr] at hfind
    exact .single hfind
  · rw [hr] at hfind
    exact .single hfind
  · exact .head (hR _ _ (.require hr) (.inr nofun))
      ((execute_within hR hu []).tail (hR _ _ (.answer t result) (.inl nofun)))

end Within

section Steps

variable {hooks : Hooks μ} {s t : Session μ} {m : ModuleId}

theorem Session.execute_steps {depth : Nat} {r : Except SessionError Unit}
    (h : execute hooks depth s m = some (r, t)) (w : List (Waiting μ)) :
    Steps hooks ⟨s, w, .enter m⟩ ⟨t, w, .leave r⟩ :=
  execute_within (fun _ _ h _ ↦ h) h w

theorem Session.executeModule_steps {r : Except SessionError Unit} (hm : s.Knows m)
    (h : s.executeModule hooks m = some (r, t)) : Steps hooks (idle s) (idle t) :=
  .head (.execute hm) ((execute_steps h []).tail (.answer t r))

theorem Session.require_steps {reference : String} {origin : Option ModuleId} {run : Bool}
    {r : Except SessionError ModuleId} (h : s.require hooks reference origin run = some (r, t)) :
    Steps hooks (idle s) (idle t) :=
  require_within (fun _ _ h _ ↦ h) .find h

end Steps

end Lading
