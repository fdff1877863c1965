import Lading.Proofs.Session.Discipline

namespace Lading

variable {μ : Type}

namespace Package

/-- The name of the module that a path stands for: what the path leads to, or what the main module
of the package leads to where that is the root or where there is no path. -/
inductive Means (p : Package) (path : Option String) : String → Prop
  | below {text name : String} (hpath : path = some text)
      (hname : ModulePath.normalize text = some name) (hne : name ≠ "") : Means p path name
  | main {name : String} (hpath : ∀ text ∈ path, ModulePath.normalize text = some "")
      (hname : ModulePath.normalize p.main = some name) (hne : name ≠ "") : Means p path name

/-- The path climbs out of the package, or it stands for the main module and that climbs out or is
the root. -/
def Misses (p : Package) (path : Option String) : Prop :=
  (∃ text ∈ path, ModulePath.normalize text = none) ∨
    (∀ text ∈ path, ModulePath.normalize text = some "") ∧
      (ModulePath.normalize p.main = none ∨ ModulePath.normalize p.main = some "")

variable {p : Package} {path : Option String}

theorem normalize_getD (h : ∀ text ∈ path, ModulePath.normalize text = some "") :
    ModulePath.normalize (path.getD "") = some "" := by
  cases path with
  | none => rfl
  | some text => exact h text rfl

theorem target_of_below {text name : String} (h : ModulePath.normalize text = some name)
    (hne : name ≠ "") : p.target (some text) = .ok name := by
  simp [target, h, hne]

theorem path_cases (path : Option String) :
    (∀ text ∈ path, ModulePath.normalize text = some "") ∨
      (∃ text name, path = some text ∧ ModulePath.normalize text = some name ∧ name ≠ "") ∨
      ∃ text, path = some text ∧ ModulePath.normalize text = none := by
  cases path with
  | none => exact .inl (by simp)
  | some text =>
    cases hname : ModulePath.normalize text with
    | none => exact .inr (.inr ⟨text, rfl, hname⟩)
    | some name =>
      by_cases hne : name = ""
      · exact .inl (by simpa [hne] using hname)
      · exact .inr (.inl ⟨text, name, rfl, hname, hne⟩)

theorem target_eq_ok_iff {name : String} : p.target path = .ok name ↔ p.Means path name := by
  constructor
  · intro h
    obtain hroot | ⟨text, below, rfl, hname, hne⟩ | ⟨text, rfl, hname⟩ := path_cases path
    · simp only [target, normalize_getD hroot, ne_eq, not_true_eq_false, if_false] at h
      split at h
      · cases h
      · rename_i main hmain
        split at h
        · cases h
        · rename_i hne
          cases h
          exact .main hroot hmain hne
    · rw [target_of_below hname hne] at h
      cases h
      exact .below rfl hname hne
    · simp [target, hname] at h
  · intro h
    cases h with
    | below hpath hname hne => rw [hpath, target_of_below hname hne]
    | main hpath hname hne => simp [target, normalize_getD hpath, hname, hne]

theorem Means.unique {name name' : String} (h : p.Means path name) (h' : p.Means path name') :
    name = name' := by
  have htarget := target_eq_ok_iff.2 h
  rw [target_eq_ok_iff.2 h'] at htarget
  exact (Except.ok.inj htarget).symm

theorem Means.self {q : Package} {name : String} (h : p.Means path name) :
    q.Means (some name) name := by
  have hname (text : String) (hname : ModulePath.normalize text = some name) (hne : name ≠ "") :
      q.Means (some name) name :=
    .below rfl (ModulePath.normalize_of_isName (ModulePath.isName_of_normalize hname hne)) hne
  cases h with
  | below _ h hne => exact hname _ h hne
  | main _ h hne => exact hname _ h hne

theorem target_eq_error_iff : (∃ misuse, p.target path = .error misuse) ↔ p.Misses path := by
  constructor
  · rintro ⟨misuse, h⟩
    obtain hroot | ⟨text, below, rfl, hname, hne⟩ | ⟨text, rfl, hname⟩ := path_cases path
    · refine .inr ⟨hroot, ?_⟩
      cases hmain : ModulePath.normalize p.main with
      | none => exact .inl rfl
      | some main =>
        by_cases hne : main = ""
        · exact .inr (by rw [hne])
        · rw [target_eq_ok_iff.2 (.main hroot hmain hne)] at h
          cases h
    · rw [target_of_below hname hne] at h
      cases h
    · exact .inl ⟨text, rfl, hname⟩
  · rintro (⟨text, hpath, hname⟩ | ⟨hroot, hmain | hmain⟩)
    · cases hpath
      simp [target, hname]
    · simp [target, normalize_getD hroot, hmain]
    · simp [target, normalize_getD hroot, hmain]

end Package

namespace Session

/-- The module is one of the package of that name, and stands there under its own name, to which a
path can lead. -/
def IsFiled (s : Session μ) (name key : String) (m : ModuleId) : Prop :=
  ModulePath.IsName key ∧
    ∃ module, s.module? m = some module ∧ module.name = key ∧ module.package = some name

def Filed (s : Session μ) : Prop :=
  ∀ name p key m, s.package? name = some p → p.modules.get? key = some m → s.IsFiled name key m

variable {s t : Session μ}

theorem IsFiled.extends {name key : String} {m : ModuleId} (h : s.IsFiled name key m)
    (he : Extends s t) : t.IsFiled name key m := by
  obtain ⟨hkey, module, hmodule, hname, hpackage⟩ := h
  obtain ⟨module', hmodule', hname', hpackage'⟩ := he.modules m module hmodule
  exact ⟨hkey, module', hmodule', hname'.trans hname, hpackage'.trans hpackage⟩

theorem Filed.extends (hs : s.Filed) (he : Extends s t) (hpackages : t.packages = s.packages) :
    t.Filed := by
  intro name p key m hp hm
  rw [package?, hpackages] at hp
  exact (hs name p key m hp hm).extends he

theorem Change.filed (h : Change s t) (hs : s.Filed) : t.Filed := by
  intro name q key m hq hm
  rcases h.cached hq hm with ⟨p, hp, hm⟩ | ⟨hmodule, hkey⟩
  · exact (hs name p key m hp hm).extends h.quiet.toExtends
  · exact ⟨hkey, _, hmodule, rfl, rfl⟩

theorem Filed.changes (hs : s.Filed) (h : Changes s t) : t.Filed := by
  induction h with
  | refl => exact hs
  | tail _ h ih => exact h.filed ih

theorem filed_of_loadModule {p : Package} (registered : s.package? p.name = some p)
    {path : Option String} {m : ModuleId} (h : s.loadModule p path = (.ok m, t)) :
    ∃ target q, p.Means path target ∧ t.package? p.name = some q ∧ p.Grows q ∧
      q.modules.get? target = some m := by
  obtain ⟨_, -, hr, -⟩ | ⟨target, htarget, ⟨m', hm', hr, rfl⟩ | ⟨hfresh, hr, rfl⟩⟩ :=
    loadModule_cases h
  · cases hr
  · cases hr
    exact ⟨target, p, Package.target_eq_ok_iff.1 htarget, registered, .refl p, hm'⟩
  · cases hr
    refine ⟨target, _, Package.target_eq_ok_iff.1 htarget, ?_, grows_create s hfresh, ?_⟩
    · rw [package?_create, if_pos rfl]
    · rw [Entries.get?_put, if_pos rfl]

theorem loadModule_eq_error_iff {p : Package} {path : Option String} :
    (∃ error t, s.loadModule p path = (.error error, t)) ↔ p.Misses path := by
  rw [← Package.target_eq_error_iff]
  constructor
  · rintro ⟨error, t, hload⟩
    obtain ⟨misuse, htarget, -⟩ | ⟨_, -, ⟨_, -, hr, -⟩ | ⟨-, hr, -⟩⟩ := loadModule_cases hload
    · exact ⟨misuse, htarget⟩
    · cases hr
    · cases hr
  · rintro ⟨misuse, htarget⟩
    exact ⟨.misuse misuse, s, by simp [loadModule, htarget]⟩

theorem loadModule_of_means {p : Package} {path : Option String} {target : String} {m : ModuleId}
    (h : p.Means path target) (hm : p.modules.get? target = some m) :
    s.loadModule p path = (.ok m, s) := by
  simp [loadModule, Package.target_eq_ok_iff.2 h, hm]

theorem exists_loadModule {p : Package} {path : Option String} {target : String}
    (h : p.Means path target) : ∃ m t, s.loadModule p path = (.ok m, t) := by
  cases hm : p.modules.get? target with
  | none =>
    refine ⟨⟨s.modules.length⟩, s.create p target, ?_⟩
    simp only [loadModule, Package.target_eq_ok_iff.2 h, hm]
    rfl
  | some m => exact ⟨m, s, loadModule_of_means h hm⟩

end Session

open Point

namespace Point

/-- One thing that happens in a run: a step, whatever the code around the session is, or a package
is asked for a module. -/
inductive Move : Point μ → Point μ → Prop
  | step {hooks : Hooks μ} {p q : Point μ} (h : Step hooks p q) : Move p q
  | load {s t : Session μ} {w : List (Waiting μ)} {c : Control μ} {name : String}
      {package : Package} {path : Option String} {r : Except SessionError ModuleId}
      (hpackage : s.package? name = some package) (h : s.loadModule package path = (r, t)) :
      Move ⟨s, w, c⟩ ⟨t, w, c⟩

abbrev Moves : Point μ → Point μ → Prop := Relation.ReflTransGen Move

structure Kept (p : Point μ) : Prop where
  stacked : p.Stacked
  filed : p.session.Filed

variable {p q : Point μ}

theorem Move.stacked (h : Move p q) (hp : p.Stacked) : q.Stacked := by
  cases h with
  | step h => exact h.stacked hp
  | load hpackage h =>
    have hc := Session.changes_of_loadModule (by rwa [hp.named _ _ hpackage]) h
    exact hp.changes hc rfl fun m hm ↦ hc.quiet.knows (hp.entered m hm)

theorem Move.session_cases (h : Move p q) (hp : p.Stacked) :
    p.session.Changes q.session ∨
      p.session.Extends q.session ∧ q.session.packages = p.session.packages := by
  cases h with
  | step h =>
    obtain hc | ⟨m, key, value, hq⟩ | ⟨m, -, -, hq⟩ | ⟨m, b, r, -, hq⟩ :=
      h.session_cases hp.named hp.entered
    · exact .inl hc
    · exact .inr (hq ▸ ⟨Session.extends_setExport _ m key value, rfl⟩)
    · exact .inr (hq ▸ ⟨Session.extends_begin _ m, rfl⟩)
    · exact .inr (hq ▸ ⟨Session.extends_settle _ m r, by cases r <;> rfl⟩)
  | load hpackage h =>
    exact .inl (Session.changes_of_loadModule (by rwa [hp.named _ _ hpackage]) h)

theorem Move.extends (h : Move p q) (hp : p.Stacked) : p.session.Extends q.session := by
  rcases h.session_cases hp with hc | ⟨he, -⟩
  · exact hc.quiet.toExtends
  · exact he

theorem Move.kept (h : Move p q) (hp : p.Kept) : q.Kept := by
  refine ⟨h.stacked hp.stacked, ?_⟩
  rcases h.session_cases hp.stacked with hc | ⟨he, hpackages⟩
  · exact hp.filed.changes hc
  · exact hp.filed.extends he hpackages

theorem Moves.kept (h : Moves p q) (hp : p.Kept) : q.Kept := by
  induction h with
  | refl => exact hp
  | tail _ h ih => exact h.kept ih

theorem Moves.extends (h : Moves p q) (hp : p.Kept) : p.session.Extends q.session := by
  induction h with
  | refl => exact .refl _
  | tail hmoves h ih => exact ih.trans (h.extends (Moves.kept hmoves hp).stacked)

theorem moves_of_steps {hooks : Hooks μ} (h : Steps hooks p q) : Moves p q :=
  Relation.ReflTransGen.mono (fun _ _ h ↦ Move.step h) _ _ h

end Point

namespace Session

structure Unloaded (s : Session μ) : Prop where
  stacked : (idle s).Stacked
  packages : s.packages = []

variable {s : Session μ}

theorem Unloaded.kept (h : s.Unloaded) : (idle s).Kept := by
  refine ⟨h.stacked, fun name p key m hp ↦ ?_⟩
  rw [package?, show (idle s).session.packages = [] from h.packages] at hp
  cases hp

theorem unloaded_start (config : Config) (files : FileTree) (finders : List Finder) (memory : μ) :
    Unloaded (start config files finders memory) :=
  ⟨stacked_start .., rfl⟩

theorem Unloaded.succeed {old : Session μ} (h : s.Unloaded) (hmoves : Moves (idle s) (idle old))
    (config : Config) (files : FileTree) (finders : List Finder) (memory : μ) :
    Unloaded ((start config files finders memory).succeed old) :=
  ⟨stacked_succeed (hmoves.kept h.kept).stacked .., rfl⟩

theorem Opened.unloaded (h : s.Opened) : s.Unloaded := by
  induction h with
  | start config files finders memory => exact unloaded_start ..
  | succeed h hrun config files finders memory ih => exact ih.succeed (moves_of_steps hrun) ..

end Session

namespace Point

structure Identifies (p : Point μ) : Prop where
  cached : ∀ name package key m, p.session.package? name = some package →
    package.modules.get? key = some m →
      p.session.Knows m ∧ p.session.nameOf m = key ∧ p.session.packageOf? m = some package ∧
        key ≠ "" ∧ ModulePath.normalize key = some key
  /-- Two paths lead to one module exactly if they mean the same, however far apart the module is
  loaded under them. -/
  same : ∀ name package path m t q package' path' m' u,
    p.session.package? name = some package → p.session.loadModule package path = (.ok m, t) →
    Moves ⟨t, p.waiting, p.control⟩ q → q.session.package? name = some package' →
    q.session.loadModule package' path' = (.ok m', u) →
      (m = m' ↔ ∃ target, package.Means path target ∧ package'.Means path' target)
  fails : ∀ name package path, p.session.package? name = some package →
    ((∃ error t, p.session.loadModule package path = (.error error, t)) ↔ package.Misses path)
  spares : ∀ package path error t,
    p.session.loadModule package path = (.error error, t) → t = p.session

theorem Kept.cached {p : Point μ} (hp : p.Kept) {name key : String} {package : Package}
    {m : ModuleId} (hpackage : p.session.package? name = some package)
    (hm : package.modules.get? key = some m) :
    p.session.Knows m ∧ p.session.nameOf m = key ∧ p.session.packageOf? m = some package ∧
      key ≠ "" ∧ ModulePath.normalize key = some key := by
  obtain ⟨hkey, module, hmodule, hname, hpackage'⟩ := hp.filed name package key m hpackage hm
  refine ⟨⟨module, hmodule⟩, by simp [Session.nameOf, hmodule, hname],
    Session.packageOf?_eq_some.2 ⟨module, name, hmodule, hpackage', hpackage⟩, ?_,
    ModulePath.normalize_of_isName hkey⟩
  rintro rfl
  exact absurd (hkey [] (by simp [ModulePath.segments])).1 (by decide)

theorem Kept.filed_of_loadModule {p : Point μ} (hp : p.Kept) {package : Package}
    {path : Option String} {m : ModuleId} {t : Session μ}
    (registered : p.session.package? package.name = some package)
    (h : p.session.loadModule package path = (.ok m, t)) :
    ∃ package', package.Grows package' ∧ t.package? package.name = some package' ∧
      package'.modules.get? (t.nameOf m) = some m ∧ t.packageOf? m = some package' ∧
      package.Means path (t.nameOf m) := by
  have ht : Kept ⟨t, p.waiting, p.control⟩ := (Move.load registered h).kept hp
  obtain ⟨target, package', hmeans, hpackage', hgrows, hm⟩ :=
    Session.filed_of_loadModule registered h
  obtain ⟨-, hname, hof, -⟩ := ht.cached hpackage' hm
  rw [show t.nameOf m = target from hname]
  exact ⟨package', hgrows, hpackage', hm, hof, hmeans⟩

theorem Kept.same {p q : Point μ} (hp : p.Kept) {name : String} {package package' : Package}
    {path path' : Option String} {m m' : ModuleId} {t u : Session μ}
    (hpackage : p.session.package? name = some package)
    (hload : p.session.loadModule package path = (.ok m, t))
    (hmoves : Moves ⟨t, p.waiting, p.control⟩ q)
    (hpackage' : q.session.package? name = some package')
    (hload' : q.session.loadModule package' path' = (.ok m', u)) :
    m = m' ↔ ∃ target, package.Means path target ∧ package'.Means path' target := by
  have ht : Kept ⟨t, p.waiting, p.control⟩ := (Move.load hpackage hload).kept hp
  have hq := hmoves.kept ht
  have hu : Kept ⟨u, q.waiting, q.control⟩ := (Move.load hpackage' hload').kept hq
  obtain rfl := hp.stacked.named name package hpackage
  have hname := hq.stacked.named _ package' hpackage'
  obtain ⟨first, -, hfirst, hm, -, hmeans⟩ := hp.filed_of_loadModule hpackage hload
  obtain ⟨second, hgrows, hsecond, hm', -, hmeans'⟩ :=
    hq.filed_of_loadModule (hname.symm ▸ hpackage') hload'
  -- At the later load the module is still filed, so that it is after that load, too.
  obtain ⟨_, hgrown, hkept⟩ := (hmoves.extends ht).packages _ first hfirst
  rw [hpackage'] at hgrown
  cases hgrown
  have hold : second.modules.get? (t.nameOf m) = some m :=
    hgrows.modules _ _ (hkept.modules _ _ hm)
  constructor
  · rintro rfl
    have htarget : u.nameOf m = t.nameOf m := (hu.cached hsecond hold).2.1
    exact ⟨t.nameOf m, hmeans, htarget ▸ hmeans'⟩
  · rintro ⟨target, htarget, htarget'⟩
    rw [hmeans.unique htarget] at hold
    rw [hmeans'.unique htarget', hold] at hm'
    exact Option.some.inj hm'

/-- At every point of every run a package has one module for each name, whatever the paths are under
which it is loaded, and each of its modules stands under its own name. -/
theorem identifies_of_moves {s : Session μ} {p : Point μ} (hs : s.Unloaded)
    (hmoves : Moves (idle s) p) : Identifies p := by
  have hp := hmoves.kept hs.kept
  constructor
  case cached => exact fun name package key m ↦ hp.cached
  case same => exact fun name package path m t q package' path' m' u ↦ hp.same
  case fails => exact fun name package path hpackage ↦ Session.loadModule_eq_error_iff
  case spares =>
    intro package path error t hload
    obtain ⟨_, -, -, rfl⟩ | ⟨_, -, ⟨_, -, hr, -⟩ | ⟨-, hr, -⟩⟩ := Session.loadModule_cases hload
    · rfl
    · cases hr
    · cases hr

theorem identifies_inherited :
    ∃ (s t u : Session Unit) (package package' : Package) (m : ModuleId),
      Identifies (idle s) ∧ s.package? "p" = some package ∧ t.package? "p" = some package' ∧
        s.loadModule package none = (.ok m, t) ∧
        t.loadModule package' (some "x/..//index/.") = (.ok m, u) := by
  let s := (inherited.loadPackage "p" none).2
  have hstep : Step borrowing (idle inherited) (idle s) := .load inherited "p" none
  have hmoves : Moves (idle inherited) (idle s) := .single (.step hstep)
  have hidentifies := identifies_of_moves opened_inherited.unloaded hmoves
  have hmain : (s.package? "p").map (·.main) = some "index" := by decide +kernel
  obtain ⟨package, hpackage, hindex⟩ := Option.map_eq_some_iff.1 hmain
  have hmeans : package.Means none "index" :=
    .main (by simp) (by rw [hindex]; decide) (by decide)
  have hdetour (package : Package) : package.Means (some "x/..//index/.") "index" :=
    .below rfl (by decide) (by decide)
  obtain ⟨m, t, hload⟩ := Session.exists_loadModule (s := s) hmeans
  have hname : package.name = "p" :=
    (hmoves.kept opened_inherited.unloaded.kept).stacked.named _ _ hpackage
  obtain ⟨-, package', -, hpackage', -⟩ :=
    Session.filed_of_loadModule (hname.symm ▸ hpackage) hload
  rw [hname] at hpackage'
  obtain ⟨m', u, hload'⟩ := Session.exists_loadModule (s := t) (hdetour package')
  have hsame : m = m' := (hidentifies.same _ _ _ _ _ (idle t) _ _ _ _ hpackage hload .refl
    hpackage' hload').2 ⟨"index", hmeans, hdetour package'⟩
  exact ⟨s, t, u, package, package', m, hidentifies, hpackage, hpackage', hload, hsame ▸ hload'⟩

end Point

end Lading
