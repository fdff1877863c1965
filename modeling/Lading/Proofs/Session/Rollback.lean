import Lading.Proofs.Files.Tree
import Lading.Proofs.Session.Faults
import Lading.Proofs.Session.Forwarding

namespace Lading

variable {μ : Type}

def SessionError.isCycle : SessionError → Bool
  | .cyclicRequire _ => true
  | _ => false

namespace Session

/-- What modules that fail inside each other make of an error, the outermost one first. -/
def wrapped (s : Session μ) (ms : List ModuleId) (cause : SessionError) : SessionError :=
  ms.foldr (fun m error ↦ error.wrap (s.identifier m)) cause

theorem wrapped_eq (s : Session μ) (ms : List ModuleId) (cause : SessionError) :
    s.wrapped ms cause =
      if cause.isCycle then cause
      else ms.foldr (fun m error ↦ .execution (s.identifier m) error) cause := by
  induction ms with
  | nil => simp [wrapped]
  | cons m ms ih =>
    change (s.wrapped ms cause).wrap (s.identifier m) = _
    rw [ih]
    cases hcycle : cause.isCycle with
    | true =>
      cases cause with
      | cyclicRequire identifier => rfl
      | _ => cases hcycle
    | false =>
      cases ms with
      | nil =>
        cases cause with
        | cyclicRequire identifier => cases hcycle
        | _ => rfl
      | cons => rfl

/-- Some modules that ran inside each other, the outermost one first, are as if they had not run,
and nothing else ran. -/
structure Undoes (ms : List ModuleId) (s t : Session μ) : Prop extends Extends s t where
  stack : s.stack = t.stack ++ ms
  states : ∀ n, t.stateOf n = if n ∈ ms then .unexecuted else s.stateOf n
  exports : ∀ n, t.exports n = if n ∈ ms then [] else s.exports n
  journal : ∃ g : History, t.journal = s.journal ++ g ∧ ∀ n, .started n ∉ g ∧ .finished n ∉ g

theorem Undoes.refl (s : Session μ) : Undoes [] s s :=
  ⟨.refl s, by simp, by simp, by simp, [], by simp, by simp⟩

theorem exports_settle_error (s : Session μ) (m : ModuleId) (error : SessionError) (n : ModuleId) :
    (s.settle m (.error error)).2.exports n = if m = n then [] else s.exports n := by
  by_cases h : m = n
  · subst h
    cases hm : s.modules[m.index]? <;>
      simp [settle, exports, clearExports, setState, record, module?, update, hm]
  · rw [if_neg h]
    have hindex : m.index ≠ n.index := fun hi ↦ h (by cases m; cases n; simpa using hi)
    simp [settle, exports, clearExports, setState, record, module?, update, hindex]

theorem Undoes.settle {ms : List ModuleId} {m : ModuleId} {s t u : Session μ} (h : Undoes ms s t)
    (htidy : Tidies m t u) (hm : u.Knows m) (hlast : u.stack.getLast? = some m)
    (error : SessionError) : Undoes (m :: ms) s (u.settle m (.error error)).2 := by
  constructor
  case toExtends => exact (h.toExtends.trans htidy.toExtends).trans (u.extends_settle m _)
  case stack =>
    obtain ⟨rest, hrest⟩ := List.getLast?_eq_some_iff.1 hlast
    rw [h.stack, ← htidy.stack, stack_settle, hrest]
    simp
  case states =>
    intro n
    rw [stateOf_settle u hm, htidy.states, h.states]
    by_cases hn : m = n
    · simp [ending, Event.settle, hn]
    · simp [ending, Event.settle, hn, Ne.symm hn]
  case exports =>
    intro n
    rw [exports_settle_error]
    by_cases hn : m = n
    · simp [hn]
    · rw [if_neg hn, htidy.exports n (Ne.symm hn), h.exports]
      simp [Ne.symm hn]
  case journal =>
    obtain ⟨g, hg, hfailed⟩ := h.journal
    obtain ⟨g', hg', quiet⟩ := htidy.journal
    refine ⟨g ++ g' ++ [.failed m], by simp [journal_settle, ending, hg', hg], ?_⟩
    intro n
    have hstarted : .started n ∉ g' := History.notMem_quiet quiet rfl
    have hfinished : .finished n ∉ g' := History.notMem_quiet quiet rfl
    simp [hfailed n, hstarted, hfinished]

end Session

namespace Point

/-- A run from a point on comes to its first error, which undoes modules and gets wrapped. -/
def Breaks (hooks : Hooks μ) (p : Point μ) (t : Session μ) (error : SessionError) : Prop :=
  ∃ q cause ms, Smoothly hooks p q ∧ q.fault? hooks = some cause ∧ q.session.Undoes ms t ∧
    error = q.session.wrapped ms cause

theorem Breaks.head {hooks : Hooks μ} {p p' : Point μ} {t : Session μ} {error : SessionError}
    (h : Smoothly hooks p p') (h' : p'.Breaks hooks t error) : p.Breaks hooks t error := by
  obtain ⟨q, cause, ms, hsmooth, hrest⟩ := h'
  exact ⟨q, cause, ms, h.trans hsmooth, hrest⟩

theorem Breaks.fault {hooks : Hooks μ} {p : Point μ} {cause : SessionError}
    (h : p.fault? hooks = some cause) : p.Breaks hooks p.session cause :=
  ⟨p, cause, [], .refl, h, .refl _, rfl⟩

theorem Breaks.settle {hooks : Hooks μ} {p : Point μ} {m : ModuleId} {t u v : Session μ}
    {error : SessionError} {r : Except SessionError Unit} (h : p.Breaks hooks t error)
    (hp : p.Sound) (hm : p.session.Knows m) (htidy : t.Tidies m u)
    (hlast : u.stack.getLast? = some m) (hsettle : u.settle m (.error error) = (r, v)) :
    ∃ error', r = .error error' ∧ p.Breaks hooks v error' := by
  obtain ⟨q, cause, ms, hsmooth, hfault, hundoes, rfl⟩ := h
  have hq := hsmooth.steps.sound hp
  have hknows := (hsmooth.steps.later hp).knows hm
  have hextends := hundoes.toExtends.trans htidy.toExtends
  have hidentifier := Session.identifier_extends hextends hq.coherent hknows
  have hundone := hundoes.settle htidy (hextends.knows hknows) hlast (q.session.wrapped ms cause)
  rw [hsettle] at hundone
  refine ⟨_, (congrArg Prod.fst hsettle).symm, q, cause, m :: ms, hsmooth, hfault, hundone, ?_⟩
  change _ = SessionError.wrap (q.session.identifier m) (q.session.wrapped ms cause)
  rw [← hidentifier]
  rfl

end Point

open Point

structure Session.Forwards (hooks : Hooks μ) (execute : Session μ → ModuleId → Run μ Unit) :
    Prop where
  steps : ∀ s t n r w, execute s n = some (r, t) → Steps hooks ⟨s, w, .enter n⟩ ⟨t, w, .leave r⟩
  ok : ∀ s t n w, execute s n = some (.ok (), t) →
    Smoothly hooks ⟨s, w, .enter n⟩ ⟨t, w, .leave (.ok ())⟩
  error : ∀ s t n w error, Point.Sound ⟨s, w, .enter n⟩ → execute s n = some (.error error, t) →
    Point.Breaks hooks ⟨s, w, .enter n⟩ t error

section Body

variable {hooks : Hooks μ} {execute : Session μ → ModuleId → Run μ Unit} {m : ModuleId}

theorem Body.smooth_run (hexecute : Session.Forwards hooks execute) {b : Body μ}
    (hb : b.Forwards m) {s t : Session μ}
    (h : b.run hooks.observer execute m s = some (.ok (), t)) (w : List (Waiting μ)) :
    Smoothly hooks ⟨s, w, .body m b⟩ ⟨t, w, .body m .finish⟩ := by
  induction b generalizing s with
  | finish =>
    cases h
    exact .refl
  | fail error => cases h
  | assign n key value next ih => exact (smooth_assign n key value next).trans (ih hb h)
  | remember change next ih => exact (smooth_remember change next).trans (ih hb h)
  | inspect next ih => exact (smooth_inspect next).trans (ih s (hb s) h)
  | resolve reference next ih => exact smooth_resolve.trans (ih _ (hb _) h)
  | require reference next ih =>
    obtain ⟨error, u, hu, h⟩ | ⟨n, u, result, v, hu, hv, h⟩ := Body.run_require_cases h
    · cases Session.eq_error_of_raises (hb.2 _) h
    · cases result with
      | error error => cases Session.eq_error_of_raises (hb.2 _) h
      | ok =>
        have hcall : Smoothly hooks ⟨s, w, .body m (.require reference next)⟩ _ := smooth_call hu
        exact ((hcall.trans (hexecute.ok _ _ _ _ hv)).trans smooth_resume).trans
          (ih _ (hb.1 n) h)

theorem Body.breaks_run (hexecute : Session.Forwards hooks execute) {b : Body μ}
    (hb : b.Forwards m) {s t : Session μ} {w : List (Waiting μ)} {error : SessionError}
    (hs : Point.Sound ⟨s, w, .body m b⟩)
    (h : b.run hooks.observer execute m s = some (.error error, t)) :
    ∃ u, Point.Breaks hooks ⟨s, w, .body m b⟩ u error ∧ u.Tidies m t := by
  have later {p p' : Point μ} (hp : p.Sound) (hsmooth : Smoothly hooks p p')
      (h : p'.Sound → ∃ u, p'.Breaks hooks u error ∧ u.Tidies m t) :
      ∃ u, p.Breaks hooks u error ∧ u.Tidies m t :=
    (h (hsmooth.steps.sound hp)).imp fun _ ⟨hbreaks, htidy⟩ ↦ ⟨hbreaks.head hsmooth, htidy⟩
  induction b generalizing s with
  | finish => cases h
  | fail error' =>
    cases h
    exact ⟨t, .fault rfl, (Session.Quiet.refl t).tidies m⟩
  | assign n key value next ih =>
    exact later hs (smooth_assign n key value next) fun hs' ↦ ih hb hs' h
  | remember change next ih =>
    exact later hs (smooth_remember change next) fun hs' ↦ ih hb hs' h
  | inspect next ih =>
    exact later hs (smooth_inspect next) fun hs' ↦ ih s (hb s) hs' h
  | resolve reference next ih =>
    exact later hs smooth_resolve fun hs' ↦ ih _ (hb _) hs' h
  | require reference next ih =>
    have hm : s.Knows m := by
      refine Session.knows_of_stateOf (hs.faithful.mem_stack.1 ?_) nofun
      rw [hs.stack]
      simp [running]
    obtain ⟨cause, u, hu, h⟩ | ⟨n, u, result, v, hu, hv, h⟩ := Body.run_require_cases h
    · have hc := Session.changes_of_resolve hs.coherent hu
      cases Session.eq_error_of_raises (hb.2 cause) h
      refine ⟨s, .fault (by simp [fault?, hu, error?]), (hc.quiet.tidies m).trans ?_⟩
      exact Session.tidies_of_raises (hs.toSound.changes hc) (hc.quiet.knows hm) (hb.2 error) h
    · have hcall : Smoothly hooks ⟨s, w, .body m (.require reference next)⟩ _ := smooth_call hu
      cases result with
      | error cause =>
        cases Session.eq_error_of_raises (hb.2 cause) h
        have hentered := hcall.steps.sound hs
        have hsteps := hexecute.steps u v n _ (⟨m, n, next⟩ :: w) hv
        have hv' := hsteps.sound hentered
        have hknows := (hsteps.later hentered).knows ((hcall.steps.later hs).knows hm)
        refine ⟨v, (hexecute.error _ _ _ _ _ hentered hv).head hcall, ?_⟩
        exact Session.tidies_of_raises hv'.toSound hknows (hb.2 error) h
      | ok =>
        have hreturn := (hexecute.ok _ _ _ (⟨m, n, next⟩ :: w) hv).trans smooth_resume
        exact later hs (hcall.trans hreturn) fun hs' ↦ ih _ (hb.1 n) hs' h

end Body

namespace Session

variable {hooks : Hooks μ}

theorem eq_of_meetCycle_error {s t : Session μ} {m : ModuleId} {error : SessionError}
    (h : s.meetCycle m = (.error error, t)) : t = s := by
  unfold meetCycle at h
  dsimp only at h
  split at h
  · cases h
    rfl
  · cases h

theorem forwards_execute (hf : hooks.Forwards) (depth : Nat) :
    Forwards hooks (execute hooks depth) := by
  -- A body runs the modules that it requires at the next smaller depth.
  induction depth using Nat.strongRecOn with
  | ind depth ih =>
    constructor
    case steps => exact fun s t n r w h ↦ execute_steps h w
    case ok =>
      intro s t m w h
      obtain ⟨hm, -, rfl⟩ | ⟨hm, hcycle⟩ | ⟨hm, d, result, u, rfl, hu, hsettle⟩ := execute_cases h
      · exact smooth_pass hm
      · exact smooth_cycle hm hcycle
      · cases result with
        | error error => cases hsettle
        | ok =>
          have hrun := Body.smooth_run (ih d (Nat.lt_succ_self d)) (hf _ m) hu w
          exact ((smooth_start hm).trans hrun).trans (smooth_finish hsettle)
    case error =>
      intro s t m w error hs h
      obtain ⟨-, herror, -⟩ | ⟨hm, hcycle⟩ | ⟨hm, d, result, u, rfl, hu, hsettle⟩ :=
        execute_cases h
      · cases herror
      · cases eq_of_meetCycle_error hcycle
        exact .fault (by simp [fault?, hm, hcycle, error?])
      · cases result with
        | ok => cases hsettle
        | error error' =>
          have hstart : Smoothly hooks ⟨s, w, .enter m⟩ _ := smooth_start hm
          have hknows := hs.entered m rfl
          obtain ⟨v, hbreaks, htidy⟩ :=
            Body.breaks_run (ih d (Nat.lt_succ_self d)) (hf _ m) (hstart.steps.sound hs) hu
          -- What ran inside this module has ended, so that it is the innermost one again.
          obtain ⟨-, hstack, -⟩ := run_sound (hs.toSound.begin hknows hm) (by simp [stack_begin]) hu
          have hlast : u.stack.getLast? = some m := by simp [hstack, stack_begin]
          obtain ⟨_, hr, hbreaks⟩ := (hbreaks.head hstart).settle hs hknows htidy hlast hsettle
          cases hr
          exact hbreaks

end Session

inductive Request
  | require (reference : String) (origin : Option ModuleId)
  | execute (m : ModuleId)

namespace Session

def ask (hooks : Hooks μ) (s : Session μ) : Request → Run μ ModuleId
  | .require reference origin => s.require hooks reference origin true
  | .execute m => (s.executeModule hooks m).map fun (result, t) ↦ (result.map fun _ ↦ m, t)

/-- The first error of a request that ends with one. It arises in a session where the modules on the
stack run inside each other, and from there the request goes on to its end. -/
inductive Arises (hooks : Hooks μ) (s t : Session μ) (error : SessionError) :
    Request → Session μ → SessionError → Prop
  | unresolved {reference : String} {origin : Option ModuleId}
      (h : s.resolve hooks.observer reference origin = (.error error, t)) :
      Arises hooks s t error (.require reference origin) t error
  | required {reference : String} {origin : Option ModuleId} {m : ModuleId} {u : Session μ}
      {q : Point μ} {cause : SessionError}
      (h : s.resolve hooks.observer reference origin = (.ok m, u))
      (hsmooth : Smoothly hooks ⟨u, [], .enter m⟩ q) (hfault : q.fault? hooks = some cause)
      (hend : Steps hooks q ⟨t, [], .leave (.error error)⟩) :
      Arises hooks s t error (.require reference origin) q.session cause
  | executed {m : ModuleId} {q : Point μ} {cause : SessionError}
      (hsmooth : Smoothly hooks ⟨s, [], .enter m⟩ q) (hfault : q.fault? hooks = some cause)
      (hend : Steps hooks q ⟨t, [], .leave (.error error)⟩) :
      Arises hooks s t error (.execute m) q.session cause

structure RollsBack (s u t : Session μ) (cause error : SessionError) : Prop where
  undone : ∀ m ∈ u.stack, t.stateOf m = .unexecuted ∧ t.exports m = []
  exactly : ∃ g : History, t.journal = s.journal ++ g ∧
    ∀ m, m ∈ u.stack ↔ .started m ∈ g ∧ .finished m ∉ g
  completed : ∀ m, .finished m ∈ t.journal →
    u.stateOf m = .executed ∧ t.stateOf m = .executed ∧ t.exports m = u.exports m
  settled : t.stack = [] ∧ ∀ m, t.stateOf m ≠ .executing
  error_eq : error =
    if cause.isCycle then cause
    else u.stack.foldr (fun m error ↦ .execution (u.identifier m) error) cause

theorem Undoes.rollsBack {s u t : Session μ} (h : Undoes u.stack u t) (hs : s.Sound)
    (hstack : s.stack = []) (hu : u.Sound) (ht : t.Sound)
    (hjournal : ∃ g : History, u.journal = s.journal ++ g ∧ ∀ n, .failed n ∉ g)
    (cause : SessionError) : RollsBack s u t cause (u.wrapped u.stack cause) := by
  obtain ⟨g, hg, hfailed⟩ := hjournal
  obtain ⟨g', hg', hended⟩ := h.journal
  have hempty : t.stack = [] := by simpa using h.stack
  have finished {m : ModuleId} (hm : .finished m ∈ u.journal) : m ∉ u.stack := by
    rw [hu.faithful.mem_stack, hu.faithful.finished_mem.1 hm]
    decide
  constructor
  case undone =>
    intro m hm
    exact ⟨by rw [h.states, if_pos hm], by rw [h.exports, if_pos hm]⟩
  case exactly =>
    refine ⟨g ++ g', by rw [hg', hg, List.append_assoc], ?_⟩
    intro m
    have hended' := hended m
    have hsame : .started m ∈ g ++ g' ∧ .finished m ∉ g ++ g' ↔
        .started m ∈ g ∧ .finished m ∉ g := by
      simp [hended']
    rw [hsame]
    constructor
    · intro hm
      have executing := hu.faithful.mem_stack.1 hm
      rw [hu.faithful.states, hg] at executing
      have before : History.state s.journal m ≠ .executing := by
        rw [← hs.faithful.states, ne_eq, ← hs.faithful.mem_stack, hstack]
        exact List.not_mem_nil
      refine ⟨History.started_mem before executing, fun hfinished ↦ ?_⟩
      exact finished (hg ▸ List.mem_append_right _ hfinished) hm
    · rintro ⟨hstarted, hfinished⟩
      rw [hu.faithful.mem_stack, hu.faithful.states, hg]
      exact History.state_of_started hstarted hfinished (hfailed m)
  case completed =>
    intro m hm
    have executed := ht.faithful.finished_mem.1 hm
    rw [hg', List.mem_append, or_iff_left (hended m).2] at hm
    exact ⟨hu.faithful.finished_mem.1 hm, executed, by rw [h.exports, if_neg (finished hm)]⟩
  case settled =>
    refine ⟨hempty, fun m ↦ ?_⟩
    rw [ne_eq, ← ht.faithful.mem_stack, hempty]
    exact List.not_mem_nil
  case error_eq => exact u.wrapped_eq u.stack cause

theorem rollsBack_of_executeModule {hooks : Hooks μ} (hf : hooks.Forwards) {s s' t : Session μ}
    {m : ModuleId} {error : SessionError} (hs : s.Sound) (hstack : s.stack = [])
    (hc : s.Changes s') (hm : s'.Knows m)
    (h : s'.executeModule hooks m = some (.error error, t)) :
    ∃ q cause, Smoothly hooks ⟨s', [], .enter m⟩ q ∧ q.fault? hooks = some cause ∧
      Steps hooks q ⟨t, [], .leave (.error error)⟩ ∧ RollsBack s q.session t cause error := by
  have hs' : s'.Sound := hs.changes hc
  have hstack' : s'.stack = [] := hc.quiet.stack.trans hstack
  have hp : Point.Sound ⟨s', [], .enter m⟩ :=
    (Step.execute hm : Step hooks _ _).sound (sound_idle hs' hstack')
  obtain ⟨q, cause, ms, hsmooth, hfault, hundoes, rfl⟩ :=
    (forwards_execute hf _).error s' t m [] error hp h
  obtain ⟨ht, hsame, -⟩ := execute_sound hs' hm h
  have hms : q.session.stack = ms := by rw [hundoes.stack, hsame, hstack', List.nil_append]
  obtain ⟨g, hg, quiet⟩ := hc.quiet.journal
  obtain ⟨g', hg', hfailed⟩ := hsmooth.journal hp
  have hjournal : ∃ g : History, q.session.journal = s.journal ++ g ∧ ∀ n, .failed n ∉ g := by
    have hfailed' (n : ModuleId) : .failed n ∉ g := History.notMem_quiet quiet rfl
    exact ⟨g ++ g', by rw [hg', hg, List.append_assoc], by simp [hfailed, hfailed']⟩
  subst hms
  exact ⟨q, cause, hsmooth, hfault, hsmooth.continues hfault (execute_steps h []),
    hundoes.rollsBack hs hstack (hsmooth.steps.sound hp).toSound ht hjournal cause⟩

/-- Where bodies pass errors on, the first error in a request of the host ends it: the modules on
the stack at that moment are undone from the innermost one outwards, and each of them wraps the
error. -/
theorem rollsBack_of_ask {hooks : Hooks μ} (hf : hooks.Forwards) {config : Config}
    {files : FileTree} {finders : List Finder} {memory : μ} {s : Session μ}
    (h : Steps hooks (idle (.start config files finders memory)) (idle s)) {request : Request}
    (hrequest : ∀ m, request = .execute m → s.Knows m) {error : SessionError} {t : Session μ}
    (hask : s.ask hooks request = some (.error error, t)) :
    ∃ u cause, Arises hooks s t error request u cause ∧ RollsBack s u t cause error := by
  have hidle : (idle s).Sound := h.sound (sound_idle (sound_start ..) rfl)
  have hs : s.Sound := hidle.toSound
  have hstack : s.stack = [] := hidle.stack
  have failed {α : Type} {result : Except SessionError Unit} {a : α}
      (h : (result.map fun _ ↦ a) = .error error) : result = .error error := by
    cases result with
    | error => exact congrArg _ (Except.error.inj h)
    | ok => cases h
  cases request with
  | execute m =>
    obtain ⟨⟨result, t'⟩, hexecute, heq⟩ := Option.map_eq_some_iff.1 hask
    obtain ⟨hresult, rfl⟩ := Prod.mk.inj heq
    rw [failed hresult] at hexecute
    obtain ⟨q, cause, hsmooth, hfault, hend, hrolls⟩ :=
      rollsBack_of_executeModule hf hs hstack .refl (hrequest m rfl) hexecute
    exact ⟨q.session, cause, .executed hsmooth hfault hend, hrolls⟩
  | require reference origin =>
    obtain ⟨error', hr, herror⟩ | ⟨m, u, hr, ⟨hrun, -⟩ | ⟨-, result, hu, hresult⟩⟩ :=
      require_cases hask
    · cases herror
      have hc := changes_of_resolve hs.coherent hr
      obtain ⟨g, hg, quiet⟩ := hc.quiet.journal
      have ht : t.stack = [] := hc.quiet.stack.trans hstack
      have hundoes : Undoes t.stack t t := ht ▸ .refl t
      have hrolls := hundoes.rollsBack hs hstack (hs.changes hc) (hs.changes hc)
        ⟨g, hg, fun _ ↦ History.notMem_quiet quiet rfl⟩ error
      rw [ht] at hrolls
      exact ⟨t, error, .unresolved hr, hrolls⟩
    · cases hrun
    · rw [failed hresult.symm] at hu
      obtain ⟨q, cause, hsmooth, hfault, hend, hrolls⟩ :=
        rollsBack_of_executeModule hf hs hstack (changes_of_resolve hs.coherent hr)
          (knows_of_resolve hs.coherent hr) hu
      exact ⟨q.session, cause, .required hr hsmooth hfault hend, hrolls⟩

end Session

def brokenChain : FileTree :=
  .ofTexts
    [("/r/p/nnp.json", "\x7b\"name\":\"p\",\"version\":\"1.0.0\"\x7d"),
      ("/r/p/a.json", "\x7b\"require\":[\"./b\",\"./c\"]\x7d"),
      ("/r/p/b.json", "\x7b\"x\":1\x7d"),
      ("/r/p/c.json", "\x7b\"require\":[\"./d\"]\x7d")]

def startBrokenChain : Session Unit :=
  .start (Config.standard "/work" "/home") brokenChain [.directory "/r"] ()

theorem rollsBack_brokenChain :
    ∃ t u error cause,
      startBrokenChain.ask (DataModule.hooks none) (.require "p/a" none) = some (.error error, t) ∧
      Session.Arises (DataModule.hooks none) startBrokenChain t error (.require "p/a" none) u
        cause ∧
      Session.RollsBack startBrokenChain u t cause error ∧
      error = .execution "p@1.0.0/a" (.execution "p@1.0.0/c" (.execution "p@1.0.0/d"
        (.failure "/r/p/d.json: No such file or directory (os error 2)"))) ∧
      t.stateOf ⟨0⟩ = .unexecuted ∧ t.stateOf ⟨1⟩ = .executed := by
  have hrun : (startBrokenChain.ask (DataModule.hooks none) (.require "p/a" none)).any
      fun (r, t) ↦
        error? r = some (.execution "p@1.0.0/a" (.execution "p@1.0.0/c" (.execution "p@1.0.0/d"
          (.failure "/r/p/d.json: No such file or directory (os error 2)")))) ∧
        t.stateOf ⟨0⟩ = .unexecuted ∧ t.stateOf ⟨1⟩ = .executed := by
    decide +kernel
  obtain ⟨⟨r, t⟩, ht, hrun⟩ := (Option.any_eq_true ..).1 hrun
  simp only [decide_eq_true_eq] at hrun
  obtain ⟨hr, hstates⟩ := hrun
  cases r with
  | ok => cases hr
  | error error =>
    cases hr
    obtain ⟨u, cause, harises, hrolls⟩ :=
      Session.rollsBack_of_ask (DataModule.hooks_forwards none) .refl (fun _ h ↦ by cases h) ht
    exact ⟨t, u, _, cause, ht, harises, hrolls, rfl, hstates⟩

end Lading
