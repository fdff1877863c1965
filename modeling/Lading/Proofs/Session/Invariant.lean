import Lading.Proofs.Session.Point

namespace Lading

variable {μ : Type}

namespace Session

structure Later (s t : Session μ) : Prop extends Extends s t where
  journal : ∃ g : History, t.journal = s.journal ++ g

theorem Later.refl (s : Session μ) : Later s s := ⟨.refl s, [], by simp⟩

theorem Later.trans {s t u : Session μ} (h : Later s t) (h' : Later t u) : Later s u := by
  obtain ⟨g, hg⟩ := h.journal
  obtain ⟨g', hg'⟩ := h'.journal
  exact ⟨h.toExtends.trans h'.toExtends, g ++ g', by rw [hg', hg, List.append_assoc]⟩

theorem Quiet.later {s t : Session μ} (h : Quiet s t) : Later s t := by
  obtain ⟨g, hg, -⟩ := h.journal
  exact ⟨h.toExtends, g, hg⟩

theorem Coherent.congr {s t : Session μ} (hs : s.Coherent) (hp : t.packages = s.packages)
    (hm : t.modules = s.modules) : t.Coherent := by
  have hpackage (name : String) : t.package? name = s.package? name := by simp [package?, hp]
  have hmodule (m : ModuleId) : t.module? m = s.module? m := by simp [module?, hm]
  constructor
  · simpa only [hpackage] using hs.named
  · simpa only [hpackage, hmodule] using hs.cached
  · simpa only [hpackage, hmodule] using hs.owned
  · simpa only [hmodule] using hs.normal

section Update

variable {s : Session μ} {m : ModuleId} {f : Module → Module}

theorem module?_update (s : Session μ) (m : ModuleId) (f : Module → Module) (n : ModuleId) :
    (s.update m f).module? n = if m = n then (s.module? n).map f else s.module? n := by
  by_cases h : m = n
  · simp [update, module?, h]
  · have hindex : m.index ≠ n.index := fun hi ↦ h (by cases m; cases n; simpa using hi)
    simp [update, module?, h, hindex]

theorem extends_update (s : Session μ) (m : ModuleId)
    (hf : ∀ module, (f module).name = module.name ∧ (f module).package = module.package) :
    Extends s (s.update m f) := by
  refine ⟨rfl, rfl, rfl, rfl, fun _ p h ↦ ⟨p, h, .refl p⟩, ?_⟩
  intro n module hn
  rw [module?_update]
  by_cases h : m = n
  · exact ⟨f module, by rw [if_pos h, hn]; rfl, hf module⟩
  · exact ⟨module, by rw [if_neg h, hn], rfl, rfl⟩

theorem coherent_update (hs : s.Coherent) (m : ModuleId)
    (hf : ∀ module, (f module).name = module.name ∧ (f module).package = module.package) :
    (s.update m f).Coherent := by
  have hextends := extends_update s m hf
  have back {n : ModuleId} {module : Module} (h : (s.update m f).module? n = some module) :
      ∃ module', s.module? n = some module' ∧ module.name = module'.name ∧
        module.package = module'.package :=
    hextends.module?_of_length (List.length_modify ..) h
  constructor
  case named => exact hs.named
  case cached =>
    intro name p key n hp hn
    obtain ⟨module, hmodule, hkey, hname⟩ := hs.cached name p key n hp hn
    obtain ⟨module', hmodule', hkey', hname'⟩ := hextends.modules n module hmodule
    exact ⟨module', hmodule', hkey'.trans hkey, hname'.trans hname⟩
  case owned =>
    intro n module hn
    obtain ⟨module', hmodule', hkey, hname⟩ := back hn
    obtain ⟨name, p, hpackage, hp, hcached⟩ := hs.owned n module' hmodule'
    exact ⟨name, p, hname.trans hpackage, hp, hkey ▸ hcached⟩
  case normal =>
    intro n module hn
    obtain ⟨module', hmodule', hkey, -⟩ := back hn
    exact hkey ▸ hs.normal n module' hmodule'

theorem extends_setState (s : Session μ) (m : ModuleId) (state : ModuleState) :
    Extends s (s.setState m state) :=
  extends_update s m fun _ ↦ ⟨rfl, rfl⟩

theorem coherent_setState (hs : s.Coherent) (m : ModuleId) (state : ModuleState) :
    (s.setState m state).Coherent :=
  coherent_update hs m fun _ ↦ ⟨rfl, rfl⟩

theorem extends_clearExports (s : Session μ) (m : ModuleId) : Extends s (s.clearExports m) :=
  extends_update s m fun _ ↦ ⟨rfl, rfl⟩

theorem coherent_clearExports (hs : s.Coherent) (m : ModuleId) : (s.clearExports m).Coherent :=
  coherent_update hs m fun _ ↦ ⟨rfl, rfl⟩

theorem extends_setExport (s : Session μ) (m : ModuleId) (key : String) (value : Json) :
    Extends s (s.setExport m key value) :=
  extends_update s m fun _ ↦ ⟨rfl, rfl⟩

theorem later_setExport (s : Session μ) (m : ModuleId) (key : String) (value : Json) :
    Later s (s.setExport m key value) :=
  ⟨extends_setExport s m key value, [], (List.append_nil _).symm⟩

theorem stateOf_setState (s : Session μ) {m : ModuleId} (hm : s.Knows m) (state : ModuleState)
    (n : ModuleId) : (s.setState m state).stateOf n = if m = n then state else s.stateOf n := by
  obtain ⟨module, hmodule⟩ := hm
  by_cases h : m = n
  · subst h
    simp [stateOf, setState, module?_update, hmodule]
  · simp [stateOf, setState, module?_update, h]

theorem stateOf_clearExports (s : Session μ) (m n : ModuleId) :
    (s.clearExports m).stateOf n = s.stateOf n := by
  by_cases h : m = n <;> simp [stateOf, clearExports, module?_update, h, Function.comp_def]

theorem stateOf_setExport (s : Session μ) (m : ModuleId) (key : String) (value : Json)
    (n : ModuleId) : (s.setExport m key value).stateOf n = s.stateOf n := by
  by_cases h : m = n <;> simp [stateOf, setExport, module?_update, h, Function.comp_def]

theorem exports_setState (s : Session μ) (m : ModuleId) (state : ModuleState) (n : ModuleId) :
    (s.setState m state).exports n = s.exports n := by
  by_cases h : m = n <;> simp [exports, setState, module?_update, h, Function.comp_def]

theorem exports_setExport (s : Session μ) {m : ModuleId} (hm : s.Knows m) (key : String)
    (value : Json) (n : ModuleId) :
    (s.setExport m key value).exports n =
      if m = n then Entries.put (s.exports n) key value else s.exports n := by
  obtain ⟨module, hmodule⟩ := hm
  by_cases h : m = n
  · subst h
    simp [exports, setExport, module?_update, hmodule]
  · simp [exports, setExport, module?_update, h]

end Update

theorem knows_of_stateOf {s : Session μ} {m : ModuleId} {state : ModuleState}
    (h : s.stateOf m = state) (hne : state ≠ .unexecuted) : s.Knows m := by
  cases hm : s.module? m with
  | none =>
    rw [← h] at hne
    exact absurd (by simp [stateOf, hm]) hne
  | some module => exact ⟨module, hm⟩

def ending (m : ModuleId) : Except SessionError Unit → Event
  | .ok () => .finished m
  | .error _ => .failed m

theorem journal_settle (s : Session μ) (m : ModuleId) (r : Except SessionError Unit) :
    (s.settle m r).2.journal = s.journal ++ [ending m r] := by
  cases r <;> rfl

theorem stack_settle (s : Session μ) (m : ModuleId) (r : Except SessionError Unit) :
    (s.settle m r).2.stack = s.stack.dropLast := by
  cases r <;> rfl

theorem stack_begin (s : Session μ) (m : ModuleId) : (s.begin m).stack = s.stack ++ [m] := rfl

theorem extends_begin (s : Session μ) (m : ModuleId) : Extends s (s.begin m) :=
  { s.extends_setState m .executing with }

theorem coherent_begin {s : Session μ} (hs : s.Coherent) (m : ModuleId) : (s.begin m).Coherent :=
  (coherent_setState hs m .executing).congr rfl rfl

theorem stateOf_begin (s : Session μ) {m : ModuleId} (hm : s.Knows m) (n : ModuleId) :
    (s.begin m).stateOf n = (Event.started m).settle n (s.stateOf n) :=
  stateOf_setState s hm .executing n

theorem later_begin (s : Session μ) (m : ModuleId) : Later s (s.begin m) :=
  ⟨s.extends_begin m, [.started m], rfl⟩

theorem exports_begin (s : Session μ) (m n : ModuleId) : (s.begin m).exports n = s.exports n :=
  exports_setState s m .executing n

theorem exports_settle_ok (s : Session μ) (m n : ModuleId) :
    (s.settle m (.ok ())).2.exports n = s.exports n :=
  exports_setState s m .executed n

theorem extends_settle (s : Session μ) (m : ModuleId) (r : Except SessionError Unit) :
    Extends s (s.settle m r).2 := by
  cases r with
  | ok => exact { s.extends_setState m .executed with }
  | error =>
    have hcleared := (s.extends_setState m .unexecuted).trans (extends_clearExports _ m)
    exact { hcleared with }

theorem later_settle (s : Session μ) (m : ModuleId) (r : Except SessionError Unit) :
    Later s (s.settle m r).2 :=
  ⟨s.extends_settle m r, _, s.journal_settle m r⟩

theorem coherent_settle {s : Session μ} (hs : s.Coherent) (m : ModuleId)
    (r : Except SessionError Unit) : (s.settle m r).2.Coherent := by
  cases r with
  | ok => exact (coherent_setState hs m .executed).congr rfl rfl
  | error =>
    have hcleared := coherent_clearExports (coherent_setState hs m .unexecuted) m
    exact hcleared.congr rfl rfl

theorem stateOf_settle (s : Session μ) {m : ModuleId} (hm : s.Knows m)
    (r : Except SessionError Unit) (n : ModuleId) :
    (s.settle m r).2.stateOf n = (ending m r).settle n (s.stateOf n) := by
  cases r with
  | ok => exact stateOf_setState s hm .executed n
  | error => exact (stateOf_clearExports _ m n).trans (stateOf_setState s hm .unexecuted n)

/-- The journal is lawful and tells the truth. -/
structure Faithful (s : Session μ) : Prop where
  lawful : History.Lawful s.journal
  states : ∀ m, s.stateOf m = History.state s.journal m
  stack : s.stack = History.running s.journal

theorem faithful_start (config : Config) (files : FileTree) (finders : List Finder) (memory : μ) :
    Faithful (start config files finders memory) :=
  ⟨History.lawful_nil, stateOf_start config files finders memory, rfl⟩

theorem Faithful.quiet {s t : Session μ} (hs : s.Faithful) (h : Quiet s t) : t.Faithful := by
  obtain ⟨g, hg, quiet⟩ := h.journal
  constructor
  case lawful =>
    rw [hg]
    exact hs.lawful.append_quiet quiet
  case states =>
    intro m
    rw [h.states, hs.states, hg, History.state_append_quiet _ quiet]
  case stack => rw [h.stack, hs.stack, hg, History.running_append_quiet _ quiet]

theorem Faithful.congr {s t : Session μ} (hs : s.Faithful) (hj : t.journal = s.journal)
    (hstate : ∀ m, t.stateOf m = s.stateOf m) (hstack : t.stack = s.stack) : t.Faithful :=
  ⟨hj ▸ hs.lawful, fun m ↦ by rw [hstate, hs.states, hj], by rw [hstack, hs.stack, hj]⟩

theorem Faithful.event {s t : Session μ} (hs : s.Faithful) {e : Event}
    (allowed : History.Allows s.journal e) (hj : t.journal = s.journal ++ [e])
    (hstate : ∀ m, t.stateOf m = e.settle m (s.stateOf m)) (hstack : t.stack = e.nest s.stack) :
    t.Faithful := by
  constructor
  case lawful =>
    rw [hj]
    exact History.lawful_concat.2 ⟨hs.lawful, allowed⟩
  case states =>
    intro m
    rw [hstate, hs.states, hj, History.state_concat]
  case stack => rw [hstack, hs.stack, hj, History.running_concat]

theorem Faithful.mem_stack {s : Session μ} (hs : s.Faithful) {m : ModuleId} :
    m ∈ s.stack ↔ s.stateOf m = .executing := by
  rw [hs.stack, hs.states]
  exact hs.lawful.running.2 m

theorem Faithful.stack_nodup {s : Session μ} (hs : s.Faithful) : s.stack.Nodup :=
  hs.stack ▸ hs.lawful.running.1

theorem Faithful.finished_mem {s : Session μ} (hs : s.Faithful) {m : ModuleId} :
    .finished m ∈ s.journal ↔ s.stateOf m = .executed := by
  rw [hs.states]
  exact hs.lawful.finished_mem

theorem changes_of_meetCycle {s t : Session μ} {m : ModuleId} {r : Except SessionError Unit}
    (h : s.meetCycle m = (r, t)) : Changes s t := by
  unfold meetCycle at h
  dsimp only at h
  split at h
  · cases h
    exact .refl
  · cases h
    exact .single (.record s rfl)

theorem strictCycles_of_meetCycle {s t : Session μ} {m : ModuleId}
    (h : s.meetCycle m = (.ok (), t)) : s.config.strictCycles = false := by
  unfold meetCycle at h
  dsimp only at h
  split at h
  · cases h
  · rename_i hstrict
    simpa using hstrict

/-- What holds of a session between any two steps. -/
structure Sound (s : Session μ) : Prop where
  coherent : s.Coherent
  faithful : s.Faithful

theorem sound_start (config : Config) (files : FileTree) (finders : List Finder) (memory : μ) :
    Sound (start config files finders memory) :=
  ⟨coherent_start .., faithful_start ..⟩

theorem Sound.changes {s t : Session μ} (hs : s.Sound) (h : Changes s t) : t.Sound :=
  ⟨h.coherent hs.coherent, hs.faithful.quiet h.quiet⟩

theorem Sound.setExport {s : Session μ} (hs : s.Sound) (m : ModuleId) (key : String)
    (value : Json) : (s.setExport m key value).Sound :=
  ⟨coherent_update hs.coherent m fun _ ↦ ⟨rfl, rfl⟩,
    hs.faithful.congr rfl (s.stateOf_setExport m key value) rfl⟩

theorem Sound.begin {s : Session μ} (hs : s.Sound) {m : ModuleId} (hm : s.Knows m)
    (h : s.stateOf m = .unexecuted) : (s.begin m).Sound := by
  have allowed : History.Allows s.journal (.started m) := (hs.faithful.states m).symm.trans h
  exact ⟨coherent_begin hs.coherent m,
    hs.faithful.event allowed rfl (s.stateOf_begin hm) rfl⟩

theorem Sound.executed_later {s t : Session μ} (hs : s.Sound) (ht : t.Sound) (h : s.Later t)
    {m : ModuleId} (hm : s.stateOf m = .executed) : t.stateOf m = .executed := by
  obtain ⟨g, hg⟩ := h.journal
  rw [← ht.faithful.finished_mem, hg]
  exact List.mem_append_left g (hs.faithful.finished_mem.2 hm)

theorem Sound.settle {s : Session μ} (hs : s.Sound) {m : ModuleId}
    (hm : s.stack.getLast? = some m) (r : Except SessionError Unit) : (s.settle m r).2.Sound := by
  have executing := hs.faithful.mem_stack.1 (List.mem_of_getLast? hm)
  have hknows : s.Knows m := knows_of_stateOf executing (by decide)
  rw [hs.faithful.stack] at hm
  constructor
  case coherent => exact coherent_settle hs.coherent m r
  case faithful =>
    apply hs.faithful.event (e := ending m r)
    case allowed => cases r <;> exact hm
    case hj => exact s.journal_settle m r
    case hstate => exact s.stateOf_settle hknows r
    case hstack =>
      rw [stack_settle]
      cases r <;> rfl

end Session

namespace Point

def running (p : Point μ) : List ModuleId :=
  (p.waiting.map (·.module)).reverse ++
    match p.control with
    | .body m _ => [m]
    | _ => []

/-- What holds at every point of a run. -/
structure Sound (p : Point μ) : Prop extends p.session.Sound where
  stack : p.session.stack = p.running
  entered : ∀ m, p.control = .enter m → p.session.Knows m

theorem sound_idle {s : Session μ} (hs : s.Sound) (hstack : s.stack = []) : (idle s).Sound :=
  ⟨hs, hstack, fun _ h ↦ by cases h⟩

theorem Sound.changes {s t : Session μ} {w v : List (Waiting μ)} {c d : Control μ}
    (hp : Sound ⟨s, w, c⟩) (h : s.Changes t) (hrun : running ⟨t, v, d⟩ = running ⟨s, w, c⟩)
    (hd : ∀ m, d = .enter m → t.Knows m) : Sound ⟨t, v, d⟩ :=
  ⟨hp.toSound.changes h, (h.quiet.stack.trans hp.stack).trans hrun.symm, hd⟩

theorem Sound.settle {s : Session μ} {w : List (Waiting μ)} {m : ModuleId} {b : Body μ}
    (hp : Sound ⟨s, w, .body m b⟩) (r : Except SessionError Unit) :
    Sound ⟨(s.settle m r).2, w, .leave (s.settle m r).1⟩ := by
  have hstack : s.stack = (w.map (·.module)).reverse ++ [m] := hp.stack
  refine ⟨hp.toSound.settle (by simp [hstack]) r, ?_, fun _ h ↦ by cases h⟩
  simp [Session.stack_settle, hstack, running]

theorem Step.sound {hooks : Hooks μ} {p q : Point μ} (h : Step hooks p q) (hp : p.Sound) :
    q.Sound := by
  cases h with
  | load s name selector =>
    exact hp.changes (Session.changes_of_loadPackage rfl) rfl fun _ h ↦ by cases h
  | add s manifest =>
    exact hp.changes (Session.changes_of_addPackage rfl) rfl fun _ h ↦ by cases h
  | find s reference origin =>
    exact hp.changes (Session.changes_of_resolve hp.coherent rfl) rfl fun _ h ↦ by cases h
  | @require s t reference origin m h =>
    have hc := Session.changes_of_resolve hp.coherent h
    apply hp.changes hc rfl
    intro n hn
    cases hn
    exact Session.knows_of_resolve hp.coherent h
  | @execute s m h =>
    refine hp.changes .refl rfl ?_
    intro n hn
    cases hn
    exact h
  | pass h => exact hp.changes .refl rfl fun _ h ↦ by cases h
  | @cycle s w m h => exact hp.changes (Session.changes_of_meetCycle rfl) rfl fun _ h ↦ by cases h
  | @start s w m h =>
    have hstack : s.stack = (w.map (·.module)).reverse := by simpa [running] using hp.stack
    refine ⟨hp.toSound.begin (hp.entered m rfl) h, ?_, fun _ h ↦ by cases h⟩
    simp [Session.stack_begin, running, hstack]
  | assign s w m n key value next =>
    exact ⟨hp.toSound.setExport n key value, hp.stack, fun _ h ↦ by cases h⟩
  | remember s w m change next =>
    exact hp.changes (.single (.memory s (change s.memory))) rfl fun _ h ↦ by cases h
  | inspect s w m next => exact hp.changes .refl rfl fun _ h ↦ by cases h
  | resolve s w m reference next =>
    exact hp.changes (Session.changes_of_resolve hp.coherent rfl) rfl fun _ h ↦ by cases h
  | refuse h => exact hp.changes (Session.changes_of_resolve hp.coherent h) rfl fun _ h ↦ by cases h
  | @call s t w m n reference next h =>
    have hc := Session.changes_of_resolve hp.coherent h
    have hrun : running ⟨t, ⟨m, n, next⟩ :: w, .enter n⟩ =
        running ⟨s, w, .body m (.require reference next)⟩ := by simp [running]
    apply hp.changes hc hrun
    intro n' hn
    cases hn
    exact Session.knows_of_resolve hp.coherent h
  | finish s w m => exact hp.settle (.ok ())
  | fail s w m error => exact hp.settle (.error error)
  | resume s w m n next result =>
    have hrun : running ⟨s, w, .body m (next (result.map fun _ ↦ n))⟩ =
        running ⟨s, ⟨m, n, next⟩ :: w, .leave result⟩ := by simp [running]
    exact hp.changes .refl hrun fun _ h ↦ by cases h
  | answer s result => exact hp.changes .refl rfl fun _ h ↦ by cases h

/-- What a step does to the session: it loads and records, it exports a value, or a run of a module
starts or ends. -/
theorem Step.session_cases {hooks : Hooks μ} {p q : Point μ} (h : Step hooks p q)
    (hnamed : p.session.Named) (hentered : ∀ m, p.control = .enter m → p.session.Knows m) :
    p.session.Changes q.session ∨
      (∃ m key value, q.session = p.session.setExport m key value) ∨
      (∃ m, p.session.Knows m ∧ p.session.stateOf m = .unexecuted ∧
        q.session = p.session.begin m) ∨
      ∃ m b r, p.control = .body m b ∧ q.session = (p.session.settle m r).2 := by
  cases h with
  | load s name selector => exact .inl (Session.changes_of_loadPackage rfl)
  | add s manifest => exact .inl (Session.changes_of_addPackage rfl)
  | find s reference origin => exact .inl (hnamed.changes_of_resolve rfl)
  | resolve s w m reference next =>
    exact .inl (hnamed.changes_of_resolve rfl)
  | require h | refuse h | call h => exact .inl (hnamed.changes_of_resolve h)
  | @cycle s w m h => exact .inl (Session.changes_of_meetCycle rfl)
  | remember s w m change next => exact .inl (.single (.memory s (change s.memory)))
  | assign s w m n key value next => exact .inr (.inl ⟨n, key, value, rfl⟩)
  | @start s w m h => exact .inr (.inr (.inl ⟨m, hentered m rfl, h, rfl⟩))
  | finish s w m => exact .inr (.inr (.inr ⟨m, _, .ok (), rfl, rfl⟩))
  | fail s w m error => exact .inr (.inr (.inr ⟨m, _, .error error, rfl, rfl⟩))
  | execute | pass | inspect | resume | answer => exact .inl .refl

theorem Step.later {hooks : Hooks μ} {p q : Point μ} (h : Step hooks p q) (hp : p.Sound) :
    p.session.Later q.session := by
  obtain hc | ⟨m, key, value, hq⟩ | ⟨m, -, -, hq⟩ | ⟨m, b, r, -, hq⟩ :=
    h.session_cases hp.coherent.named hp.entered
  · exact hc.quiet.later
  · rw [hq]
    exact Session.later_setExport _ m key value
  · rw [hq]
    exact Session.later_begin _ m
  · rw [hq]
    exact Session.later_settle _ m r

theorem Steps.sound {hooks : Hooks μ} {p q : Point μ} (h : Steps hooks p q) (hp : p.Sound) :
    q.Sound := by
  induction h with
  | refl => exact hp
  | tail _ h ih => exact h.sound ih

theorem Steps.later {hooks : Hooks μ} {p q : Point μ} (h : Steps hooks p q) (hp : p.Sound) :
    p.session.Later q.session := by
  induction h with
  | refl => exact .refl _
  | tail hsteps h ih => exact ih.trans (h.later (Steps.sound hsteps hp))

end Point

def waitingFor (stack : List ModuleId) : List (Waiting μ) :=
  stack.reverse.map fun m ↦ ⟨m, m, fun _ ↦ .finish⟩

@[simp] theorem reverse_waitingFor (stack : List ModuleId) :
    ((waitingFor stack : List (Waiting μ)).map (·.module)).reverse = stack := by
  simp [waitingFor, Function.comp_def]

namespace Session

section Run

variable {hooks : Hooks μ} {depth : Nat} {s t : Session μ} {m : ModuleId}

theorem execute_sound {r : Except SessionError Unit} (hs : s.Sound) (hm : s.Knows m)
    (h : execute hooks depth s m = some (r, t)) : t.Sound ∧ t.stack = s.stack ∧ s.Later t := by
  have hp : Point.Sound ⟨s, waitingFor s.stack, .enter m⟩ := by
    refine ⟨hs, by simp [Point.running], ?_⟩
    intro n hn
    cases hn
    exact hm
  have hsteps := execute_steps h (waitingFor s.stack)
  have ht := Point.Steps.sound hsteps hp
  refine ⟨ht.toSound, ?_, Point.Steps.later hsteps hp⟩
  simpa [Point.running] using ht.stack

theorem run_sound {b : Body μ} {r : Except SessionError Unit} (hs : s.Sound)
    (hm : s.stack.getLast? = some m)
    (h : b.run hooks.observer (execute hooks depth) m s = some (r, t)) :
    t.Sound ∧ t.stack = s.stack ∧ s.Later t := by
  obtain ⟨stack, hstack⟩ := List.getLast?_eq_some_iff.1 hm
  have hp : Point.Sound ⟨s, waitingFor stack, .body m b⟩ :=
    ⟨hs, by simp [Point.running, hstack], fun _ h ↦ by cases h⟩
  have hsteps : Point.Steps hooks _ _ :=
    Body.run_within (fun _ _ h _ ↦ h) (fun h w ↦ execute_steps h w) h (waitingFor stack)
  have ht := Point.Steps.sound hsteps hp
  refine ⟨ht.toSound, ?_, Point.Steps.later hsteps hp⟩
  simpa [Point.running, hstack] using ht.stack

/-- What holds of sessions as long as nothing but what runs inside changes the state of a module
holds after the rest of a body. -/
theorem run_preserves {observer : Option (Observer μ)} {execute : Session μ → ModuleId → Run μ Unit}
    {P : Session μ → Prop} (hsound : ∀ s, P s → s.Sound)
    (hkeep : ∀ s t, P s → t.Sound → s.Later t → (∀ n, t.stateOf n = s.stateOf n) → P t)
    (hexecute : ∀ s t n r, P s → s.Knows n → execute s n = some (r, t) → P t)
    {b : Body μ} {r : Except SessionError Unit} (hs : P s)
    (h : b.run observer execute m s = some (r, t)) : P t := by
  have hchanges {s t : Session μ} (hs : P s) (hc : s.Changes t) : P t :=
    hkeep s t hs ((hsound s hs).changes hc) hc.quiet.later hc.quiet.states
  induction b generalizing s with
  | finish | fail error =>
    cases h
    exact hs
  | assign n key value next ih =>
    exact ih (hkeep s _ hs ((hsound s hs).setExport n key value) (s.later_setExport n key value)
      (s.stateOf_setExport n key value)) h
  | remember change next ih => exact ih (hchanges hs (.single (.memory s (change s.memory)))) h
  | inspect next ih => exact ih s hs h
  | resolve reference next ih =>
    exact ih _ (hchanges hs (changes_of_resolve (hsound s hs).coherent rfl)) h
  | require reference next ih =>
    obtain ⟨error, u, hr, h⟩ | ⟨n, u, result, v, hr, hv, h⟩ := Body.run_require_cases h
    · exact ih _ (hchanges hs (changes_of_resolve (hsound s hs).coherent hr)) h
    · have hc := changes_of_resolve (hsound s hs).coherent hr
      have hn := knows_of_resolve (hsound s hs).coherent hr
      exact ih _ (hexecute _ _ _ _ (hchanges hs hc) hn hv) h

theorem stateOf_execute (hs : s.Sound) (hm : s.Knows m)
    (h : execute hooks depth s m = some (.ok (), t)) (hne : s.stateOf m ≠ .executing) :
    t.stateOf m = .executed := by
  obtain ⟨hm', -, rfl⟩ | ⟨hm', -⟩ | ⟨hm', d, result, u, -, hu, hsettle⟩ := execute_cases h
  · exact hm'
  · exact absurd hm' hne
  · obtain ⟨-, -, hlater⟩ := run_sound (hs.begin hm hm') (by simp [stack_begin]) hu
    have hknows : u.Knows m := ((s.extends_begin m).trans hlater.toExtends).knows hm
    have hstate := stateOf_settle u hknows result m
    rw [hsettle] at hstate
    cases result with
    | error error => cases hsettle
    | ok => simpa [ending, Event.settle] using hstate

theorem stateOf_require (hs : s.Sound) (hstack : s.stack = [])
    {reference : String} {origin : Option ModuleId}
    (h : s.require hooks reference origin true = some (.ok m, t)) : t.stateOf m = .executed := by
  obtain ⟨error, -, hr⟩ | ⟨n, u, hn, ⟨hrun, -⟩ | ⟨-, result, hu, hr⟩⟩ := require_cases h
  · cases hr
  · cases hrun
  · cases result with
    | error error => cases hr
    | ok =>
      cases hr
      have hc := changes_of_resolve hs.coherent hn
      apply stateOf_execute (hs.changes hc) (knows_of_resolve hs.coherent hn) hu
      intro executing
      rw [← (hs.changes hc).faithful.mem_stack, hc.quiet.stack, hstack] at executing
      cases executing

end Run

end Session

end Lading
