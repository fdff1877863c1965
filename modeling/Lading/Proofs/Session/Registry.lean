import Lading.Session.Resolve
import Lading.Proofs.Files.ModulePath
import Lading.Proofs.Session.History
import Mathlib.Logic.Relation

namespace Lading

variable {μ : Type}

structure Package.Grows (p q : Package) : Prop where
  same : q = { p with modules := q.modules }
  modules : ∀ name m, p.modules.get? name = some m → q.modules.get? name = some m

namespace Package.Grows

variable {p q r : Package}

theorem refl (p : Package) : p.Grows p := ⟨rfl, fun _ _ h ↦ h⟩

theorem trans (h : p.Grows q) (h' : q.Grows r) : p.Grows r :=
  ⟨by rw [h'.same, h.same], fun name m hm ↦ h'.modules name m (h.modules name m hm)⟩

theorem name_eq (h : p.Grows q) : q.name = p.name := by rw [h.same]

theorem target_eq (h : p.Grows q) (path : Option String) : q.target path = p.target path := by
  rw [h.same]
  rfl

theorem manifest_eq (h : p.Grows q) : q.manifest = p.manifest := by rw [h.same]

end Package.Grows

theorem Package.isName_of_target {p : Package} {path : Option String} {name : String}
    (h : p.target path = .ok name) : ModulePath.IsName name := by
  unfold Package.target at h
  split at h
  · cases h
  · rename_i normal hnormal
    split at h
    · rename_i hne
      cases h
      exact ModulePath.isName_of_normalize hnormal hne
    · split at h
      · cases h
      · rename_i main hmain
        split at h
        · cases h
        · rename_i hne
          cases h
          exact ModulePath.isName_of_normalize hmain hne

structure Package.Genuine (p : Package) : Prop where
  name : ∃ name, p.manifest.name = .ok name ∧ name.fullName = p.name
  version : p.manifest.version = .ok p.version
  dependencies : Manifest.dependencies p.effective = .ok p.dependencies

theorem Package.Grows.genuine {p q : Package} (h : p.Grows q) (hp : p.Genuine) : q.Genuine := by
  rw [h.same]
  exact ⟨hp.name, hp.version, hp.dependencies⟩

theorem Package.Genuine.fullName_eq {p : Package} (h : p.Genuine) {name : PackageName}
    (hname : p.manifest.name = .ok name) : name.fullName = p.name := by
  obtain ⟨name', hname', hfull⟩ := h.name
  rw [hname] at hname'
  cases hname'
  exact hfull

theorem Package.of_ofManifest {manifest : Manifest} {e e' : Evaluator} {p : Package}
    (h : Package.ofManifest manifest e = (.ok p, e')) :
    p.Genuine ∧ p.manifest = manifest ∧ p.modules = [] := by
  unfold Package.ofManifest at h
  split at h
  · cases h
  · cases h
  · rename_i name version hname hversion
    split at h
    · cases h
    · split at h
      · cases h
      · rename_i hdependencies
        cases h
        exact ⟨⟨⟨name, hname, rfl⟩, hversion, hdependencies⟩, rfl, rfl⟩

namespace Session

theorem packageOf?_eq_some {s : Session μ} {m : ModuleId} {p : Package} :
    s.packageOf? m = some p ↔
      ∃ module name, s.module? m = some module ∧ module.package = some name ∧
        s.package? name = some p := by
  simp [packageOf?, Option.bind_eq_some_iff]

def Knows (s : Session μ) (m : ModuleId) : Prop := ∃ module, s.module? m = some module

/-- What a session knows stays known. -/
structure Extends (s t : Session μ) : Prop where
  config : t.config = s.config
  files : t.files = s.files
  finders : t.finders = s.finders
  hostPaths : t.hostPaths = s.hostPaths
  packages : ∀ name p, s.package? name = some p → ∃ q, t.package? name = some q ∧ p.Grows q
  modules : ∀ m module, s.module? m = some module →
    ∃ module', t.module? m = some module' ∧ module'.name = module.name ∧
      module'.package = module.package

namespace Extends

variable {s t u : Session μ}

theorem refl (s : Session μ) : Extends s s :=
  ⟨rfl, rfl, rfl, rfl, fun _ p h ↦ ⟨p, h, .refl p⟩, fun _ module h ↦ ⟨module, h, rfl, rfl⟩⟩

theorem trans (h : Extends s t) (h' : Extends t u) : Extends s u where
  config := h'.config.trans h.config
  files := h'.files.trans h.files
  finders := h'.finders.trans h.finders
  hostPaths := h'.hostPaths.trans h.hostPaths
  packages := fun name p hp ↦ by
    obtain ⟨q, hq, hpq⟩ := h.packages name p hp
    obtain ⟨r, hr, hqr⟩ := h'.packages name q hq
    exact ⟨r, hr, hpq.trans hqr⟩
  modules := fun m module hm ↦ by
    obtain ⟨module', hm', hname, hpackage⟩ := h.modules m module hm
    obtain ⟨module'', hm'', hname', hpackage'⟩ := h'.modules m module' hm'
    exact ⟨module'', hm'', hname'.trans hname, hpackage'.trans hpackage⟩

theorem knows (h : Extends s t) {m : ModuleId} (hm : s.Knows m) : t.Knows m := by
  obtain ⟨module, hmodule⟩ := hm
  obtain ⟨module', hmodule', -⟩ := h.modules m module hmodule
  exact ⟨module', hmodule'⟩

theorem nameOf_eq (h : Extends s t) {m : ModuleId} (hm : s.Knows m) : t.nameOf m = s.nameOf m := by
  obtain ⟨module, hmodule⟩ := hm
  obtain ⟨module', hmodule', hname, -⟩ := h.modules m module hmodule
  simp [nameOf, hmodule, hmodule', hname]

theorem packageOf? (h : Extends s t) {m : ModuleId} {p : Package} (hp : s.packageOf? m = some p) :
    ∃ q, t.packageOf? m = some q ∧ p.Grows q := by
  obtain ⟨module, name, hmodule, hpackage, hname⟩ := packageOf?_eq_some.1 hp
  obtain ⟨module', hmodule', -, hpackage'⟩ := h.modules m module hmodule
  obtain ⟨q, hq, hpq⟩ := h.packages name p hname
  exact ⟨q, packageOf?_eq_some.2 ⟨module', name, hmodule', hpackage'.trans hpackage, hq⟩, hpq⟩

theorem module?_of_length (h : Extends s t) (hlength : t.modules.length = s.modules.length)
    {m : ModuleId} {module : Module} (hm : t.module? m = some module) :
    ∃ module', s.module? m = some module' ∧ module.name = module'.name ∧
      module.package = module'.package := by
  obtain ⟨hindex, -⟩ := List.getElem?_eq_some_iff.1 hm
  rw [hlength] at hindex
  have hm' : s.module? m = some s.modules[m.index] := List.getElem?_eq_getElem hindex
  obtain ⟨module', hmodule', hname, hpackage⟩ := h.modules m _ hm'
  rw [hm] at hmodule'
  cases hmodule'
  exact ⟨_, hm', hname, hpackage⟩

end Extends

theorem knows_of_packageOf? {s : Session μ} {m : ModuleId} {p : Package}
    (h : s.packageOf? m = some p) : s.Knows m := by
  obtain ⟨module, -, hmodule, -⟩ := packageOf?_eq_some.1 h
  exact ⟨module, hmodule⟩

/-- Packages stand under their names, and modules and the packages that have them agree. -/
structure Coherent (s : Session μ) : Prop where
  named : ∀ name p, s.package? name = some p → p.name = name
  cached : ∀ name p key m, s.package? name = some p → p.modules.get? key = some m →
    ∃ module, s.module? m = some module ∧ module.name = key ∧ module.package = some name
  owned : ∀ m module, s.module? m = some module →
    ∃ name p, module.package = some name ∧ s.package? name = some p ∧
      p.modules.get? module.name = some m
  normal : ∀ m module, s.module? m = some module → ModulePath.IsName module.name

theorem coherent_start (config : Config) (files : FileTree) (finders : List Finder) (memory : μ) :
    Coherent (start config files finders memory) := by
  constructor <;> simp [start, package?, module?]

theorem stateOf_start (config : Config) (files : FileTree) (finders : List Finder) (memory : μ)
    (m : ModuleId) : (start config files finders memory).stateOf m = .unexecuted := by
  simp [start, stateOf, module?]

theorem Coherent.packageOf? {s : Session μ} (h : s.Coherent) {m : ModuleId} (hm : s.Knows m) :
    ∃ p, s.packageOf? m = some p ∧ p.modules.get? (s.nameOf m) = some m := by
  obtain ⟨module, hmodule⟩ := hm
  obtain ⟨name, p, hpackage, hp, hcached⟩ := h.owned m module hmodule
  refine ⟨p, packageOf?_eq_some.2 ⟨module, name, hmodule, hpackage, hp⟩, ?_⟩
  simpa [nameOf, hmodule] using hcached

theorem identifier_extends {s t : Session μ} (h : Extends s t) (hs : s.Coherent) {m : ModuleId}
    (hm : s.Knows m) : t.identifier m = s.identifier m := by
  obtain ⟨p, hp, -⟩ := hs.packageOf? hm
  obtain ⟨q, hq, hpq⟩ := h.packageOf? hp
  have hidentifier : q.identifier = p.identifier := by rw [hpq.same]; rfl
  simp only [identifier, hp, hq, hidentifier, h.nameOf_eq hm]

theorem Coherent.isName_nameOf {s : Session μ} (h : s.Coherent) {m : ModuleId} (hm : s.Knows m) :
    ModulePath.IsName (s.nameOf m) := by
  obtain ⟨module, hmodule⟩ := hm
  simpa [nameOf, hmodule] using h.normal m module hmodule

def register (s : Session μ) (p : Package) (cache : PredicateCache) (warnings : List EvalError) :
    Session μ :=
  { s with
    cache
    packages := Entries.put s.packages p.name p
    journal := s.journal ++ warnings.map (.unanswered p.identifier) ++ [.loaded p.name] }

def create (s : Session μ) (p : Package) (name : String) : Session μ :=
  { s with
    modules := s.modules ++ [⟨name, some p.name, .unexecuted, []⟩]
    packages := Entries.put s.packages p.name
      { p with modules := Entries.put p.modules name ⟨s.modules.length⟩ } }

/-- One thing that loading and resolving can do to a session. -/
inductive Change : Session μ → Session μ → Prop
  | cache (s : Session μ) (cache : PredicateCache) : Change s { s with cache }
  | memory (s : Session μ) (memory : μ) : Change s { s with memory }
  | record (s : Session μ) {e : Event} (quiet : e.isQuiet) : Change s (s.record e)
  | register {s : Session μ} {p : Package} (cache : PredicateCache) (warnings : List EvalError)
      (fresh : s.package? p.name = none) (empty : p.modules = []) :
      Change s (s.register p cache warnings)
  | create {s : Session μ} {p : Package} {name : String} (registered : s.package? p.name = some p)
      (fresh : p.modules.get? name = none) (normal : ModulePath.IsName name) :
      Change s (s.create p name)

abbrev Changes : Session μ → Session μ → Prop := Relation.ReflTransGen Change

/-- A change while nothing starts, ends or exports. -/
structure Quiet (s t : Session μ) : Prop extends Extends s t where
  stack : t.stack = s.stack
  states : ∀ m, t.stateOf m = s.stateOf m
  exports : ∀ m, t.exports m = s.exports m
  journal : ∃ g : History, t.journal = s.journal ++ g ∧ ∀ e ∈ g, e.isQuiet

theorem Quiet.refl (s : Session μ) : Quiet s s :=
  ⟨.refl s, rfl, fun _ ↦ rfl, fun _ ↦ rfl, [], by simp, by simp⟩

theorem Quiet.trans {s t u : Session μ} (h : Quiet s t) (h' : Quiet t u) : Quiet s u := by
  obtain ⟨g, hg, hquiet⟩ := h.journal
  obtain ⟨g', hg', hquiet'⟩ := h'.journal
  refine ⟨h.toExtends.trans h'.toExtends, h'.stack.trans h.stack,
    fun m ↦ (h'.states m).trans (h.states m), fun m ↦ (h'.exports m).trans (h.exports m),
    g ++ g', by rw [hg', hg, List.append_assoc], ?_⟩
  intro e he
  rcases List.mem_append.1 he with he | he
  · exact hquiet e he
  · exact hquiet' e he

theorem package?_register (s : Session μ) (p : Package) (cache : PredicateCache)
    (warnings : List EvalError) (name : String) :
    (s.register p cache warnings).package? name =
      if p.name = name then some p else s.package? name :=
  Entries.get?_put ..

theorem package?_create (s : Session μ) (p : Package) (key name : String) :
    (s.create p key).package? name =
      if p.name = name then
        some { p with modules := Entries.put p.modules key ⟨s.modules.length⟩ }
      else s.package? name :=
  Entries.get?_put ..

theorem module?_create (s : Session μ) (p : Package) (name : String) (m : ModuleId) :
    (s.create p name).module? m =
      if m = ⟨s.modules.length⟩ then some ⟨name, some p.name, .unexecuted, []⟩
      else s.module? m := by
  obtain ⟨n⟩ := m
  rcases Nat.lt_trichotomy n s.modules.length with h | rfl | h
  · simp [create, module?, List.getElem?_append_left h, Nat.ne_of_lt h]
  · simp [create, module?]
  · have hn : n ≠ s.modules.length := Nat.ne_of_gt h
    simp only [create, module?, ModuleId.mk.injEq, hn, if_false]
    rw [List.getElem?_eq_none (by simpa using Nat.succ_le_of_lt h),
      List.getElem?_eq_none (Nat.le_of_lt h)]

theorem module?_length (s : Session μ) : s.module? ⟨s.modules.length⟩ = none := by
  simp [module?]

theorem name_ne_of_package? {s : Session μ} {p q : Package} {name : String}
    (fresh : s.package? p.name = none) (hq : s.package? name = some q) : p.name ≠ name := by
  rintro rfl
  rw [fresh] at hq
  cases hq

theorem ne_length_of_module? {s : Session μ} {m : ModuleId} {module : Module}
    (hm : s.module? m = some module) : m ≠ ⟨s.modules.length⟩ := by
  rintro rfl
  rw [module?_length] at hm
  cases hm

section Register

variable {s : Session μ} {p : Package} (cache : PredicateCache) (warnings : List EvalError)

theorem quiet_register (fresh : s.package? p.name = none) :
    Quiet s (s.register p cache warnings) := by
  have hextends : Extends s (s.register p cache warnings) := by
    refine ⟨rfl, rfl, rfl, rfl, ?_, (Extends.refl s).modules⟩
    intro name q hq
    rw [package?_register, if_neg (name_ne_of_package? fresh hq)]
    exact ⟨q, hq, .refl q⟩
  refine ⟨hextends, rfl, fun _ ↦ rfl, fun _ ↦ rfl, _, List.append_assoc .., ?_⟩
  intro e he
  rcases List.mem_append.1 he with he | he
  · obtain ⟨error, -, rfl⟩ := List.mem_map.1 he
    rfl
  · cases List.mem_singleton.1 he
    rfl

end Register

section Create

variable {s : Session μ} {p : Package} {key : String}

theorem grows_create (s : Session μ) (fresh : p.modules.get? key = none) :
    p.Grows { p with modules := Entries.put p.modules key ⟨s.modules.length⟩ } := by
  refine ⟨rfl, ?_⟩
  intro name m hm
  have hne : key ≠ name := by
    rintro rfl
    rw [fresh] at hm
    cases hm
  rw [Entries.get?_put, if_neg hne, hm]

theorem module?_create_of_module? {m : ModuleId} {module : Module}
    (hm : s.module? m = some module) : (s.create p key).module? m = some module := by
  rw [module?_create, if_neg (ne_length_of_module? hm), hm]

theorem extends_create (registered : s.package? p.name = some p)
    (fresh : p.modules.get? key = none) : Extends s (s.create p key) := by
  refine ⟨rfl, rfl, rfl, rfl, ?_, ?_⟩
  · intro name q hq
    by_cases hname : p.name = name
    · subst hname
      rw [registered] at hq
      cases hq
      exact ⟨_, by rw [package?_create, if_pos rfl], grows_create s fresh⟩
    · exact ⟨q, by rw [package?_create, if_neg hname, hq], .refl q⟩
  · intro m module hm
    exact ⟨module, module?_create_of_module? hm, rfl, rfl⟩

theorem quiet_create (registered : s.package? p.name = some p)
    (fresh : p.modules.get? key = none) : Quiet s (s.create p key) := by
  have hnext := module?_length s
  constructor
  case toExtends => exact extends_create registered fresh
  case stack => rfl
  case states =>
    intro m
    by_cases hm : m = ⟨s.modules.length⟩
    · simp [stateOf, module?_create, hm, hnext]
    · simp [stateOf, module?_create, hm]
  case exports =>
    intro m
    by_cases hm : m = ⟨s.modules.length⟩
    · simp [Session.exports, module?_create, hm, hnext]
    · simp [Session.exports, module?_create, hm]
  case journal => exact ⟨[], (List.append_nil _).symm, by simp⟩

end Create

theorem Change.quiet {s t : Session μ} (h : Change s t) : Quiet s t := by
  cases h with
  | cache cache | memory memory => exact { Quiet.refl s with }
  | record quiet => exact { Quiet.refl s with journal := ⟨[_], rfl, by simpa using quiet⟩ }
  | register cache warnings fresh empty => exact quiet_register cache warnings fresh
  | create registered fresh normal => exact quiet_create registered fresh

section Change

variable {s t : Session μ}

theorem Change.named (h : Change s t) (hs : ∀ name p, s.package? name = some p → p.name = name) :
    ∀ name p, t.package? name = some p → p.name = name := by
  intro name q hq
  cases h with
  | cache | memory | record => exact hs name q hq
  | register =>
    rw [package?_register] at hq
    split at hq
    · cases hq
      assumption
    · exact hs name q hq
  | create =>
    rw [package?_create] at hq
    split at hq
    · cases hq
      assumption
    · exact hs name q hq

theorem Change.cached (h : Change s t) {name key : String} {q : Package} {m : ModuleId}
    (hq : t.package? name = some q) (hm : q.modules.get? key = some m) :
    (∃ p, s.package? name = some p ∧ p.modules.get? key = some m) ∨
      t.module? m = some ⟨key, some name, .unexecuted, []⟩ ∧ ModulePath.IsName key := by
  cases h with
  | cache | memory | record => exact .inl ⟨q, hq, hm⟩
  | @register p cache warnings fresh empty =>
    rw [package?_register] at hq
    split at hq
    · cases hq
      simp [empty] at hm
    · exact .inl ⟨q, hq, hm⟩
  | @create p new registered fresh normal =>
    rw [package?_create] at hq
    split at hq
    · rename_i hname
      subst hname
      cases hq
      rw [Entries.get?_put] at hm
      split at hm
      · rename_i hkey
        subst hkey
        cases hm
        exact .inr ⟨by rw [module?_create, if_pos rfl], normal⟩
      · exact .inl ⟨p, registered, hm⟩
    · exact .inl ⟨q, hq, hm⟩

theorem Change.coherent (h : Change s t) (hs : s.Coherent) : t.Coherent := by
  constructor
  case named => exact h.named hs.named
  case cached =>
    intro name q key m hq hm
    rcases h.cached hq hm with ⟨p, hp, hm⟩ | ⟨hmodule, -⟩
    · obtain ⟨module, hmodule, hkey, hname⟩ := hs.cached name p key m hp hm
      obtain ⟨module', hmodule', hkey', hname'⟩ := h.quiet.modules m module hmodule
      exact ⟨module', hmodule', hkey'.trans hkey, hname'.trans hname⟩
    · exact ⟨_, hmodule, rfl, rfl⟩
  case owned =>
    intro m module hm
    cases h with
    | cache | memory | record => exact hs.owned m module hm
    | register cache warnings fresh empty =>
      obtain ⟨name, q, hpackage, hq, hcached⟩ := hs.owned m module hm
      refine ⟨name, q, hpackage, ?_, hcached⟩
      rw [package?_register, if_neg (name_ne_of_package? fresh hq), hq]
    | @create p key registered fresh normal =>
      rw [module?_create] at hm
      split at hm
      · rename_i hnew
        cases hm
        refine ⟨p.name, _, rfl, by rw [package?_create, if_pos rfl], ?_⟩
        rw [Entries.get?_put, if_pos rfl, hnew]
      · obtain ⟨name, q, hpackage, hq, hcached⟩ := hs.owned m module hm
        obtain ⟨q', hq', hgrows⟩ := (extends_create registered fresh).packages name q hq
        exact ⟨name, q', hpackage, hq', hgrows.modules _ m hcached⟩
  case normal =>
    intro m module hm
    cases h with
    | cache | memory | record | register => exact hs.normal m module hm
    | create registered fresh normal =>
      rw [module?_create] at hm
      split at hm
      · cases hm
        exact normal
      · exact hs.normal m module hm

end Change

theorem Changes.quiet {s t : Session μ} (h : Changes s t) : Quiet s t := by
  induction h with
  | refl => exact .refl s
  | tail _ h ih => exact ih.trans h.quiet

theorem Changes.coherent {s t : Session μ} (h : Changes s t) (hs : s.Coherent) : t.Coherent := by
  induction h with
  | refl => exact hs
  | tail _ h ih => exact h.coherent ih

end Session

end Lading
