import Lading.Session.Resolve

namespace Lading.Session

variable {μ : Type}

def reframe (f : Config → Config) (g : FileTree → FileTree) (s : Session μ) : Session μ :=
  { s with config := f s.config, files := g s.files }

variable {f : Config → Config} {g : FileTree → FileTree} {s : Session μ}

theorem addPackage_reframe (hcontext : (f s.config).context = s.config.context)
    (manifest : Manifest) :
    (s.reframe f g).addPackage manifest =
      ((s.addPackage manifest).1, (s.addPackage manifest).2.reframe f g) := by
  have hpackage (name : String) : (s.reframe f g).package? name = s.package? name := rfl
  have hcache : (s.reframe f g).cache = s.cache := rfl
  have hcontext' : (s.reframe f g).config.context = s.config.context := hcontext
  unfold addPackage
  cases manifest.name with
  | error error => rfl
  | ok name =>
    simp only [hpackage, hcache, hcontext']
    split
    · rfl
    · cases Package.ofManifest manifest ⟨s.cache, s.config.context⟩ with
      | mk result e => cases result <;> rfl

theorem loadPackage_reframe (hcontext : (f s.config).context = s.config.context)
    (hfind : ∀ name selector, Finder.findFirst (g s.files) name selector s.finders =
      Finder.findFirst s.files name selector s.finders)
    (name : String) (selector : Option Selector) :
    (s.reframe f g).loadPackage name selector =
      ((s.loadPackage name selector).1, (s.loadPackage name selector).2.reframe f g) := by
  have hpackage : (s.reframe f g).package? name = s.package? name := rfl
  have hfind' (selector : Selector) :
      Finder.findFirst (s.reframe f g).files name selector (s.reframe f g).finders =
        Finder.findFirst s.files name selector s.finders := hfind name selector
  unfold loadPackage findPackage
  rw [hpackage]
  cases s.package? name with
  | none =>
    simp only [hfind']
    cases Finder.findFirst s.files name (selector.getD .any) s.finders with
    | error error => rfl
    | ok manifest =>
      dsimp only
      cases manifest.name with
      | error error => rfl
      | ok found =>
        dsimp only
        split
        · rfl
        · exact addPackage_reframe hcontext manifest
  | some p =>
    cases selector with
    | none => rfl
    | some selector =>
      dsimp only
      split <;> rfl

theorem loadModule_reframe (f : Config → Config) (g : FileTree → FileTree) (s : Session μ)
    (p : Package) (path : Option String) :
    (s.reframe f g).loadModule p path =
      ((s.loadModule p path).1, (s.loadModule p path).2.reframe f g) := by
  unfold loadModule
  cases p.target path with
  | error misuse => rfl
  | ok name =>
    dsimp only
    cases p.modules.get? name <;> rfl

theorem resolveRelative_reframe (f : Config → Config) (g : FileTree → FileTree) (s : Session μ)
    (reference : String) (origin : Option ModuleId) :
    (s.reframe f g).resolveRelative reference origin =
      ((s.resolveRelative reference origin).1,
        (s.resolveRelative reference origin).2.reframe f g) := by
  cases origin with
  | none => rfl
  | some m =>
    have hpackage : (s.reframe f g).packageOf? m = s.packageOf? m := rfl
    have hname : (s.reframe f g).nameOf m = s.nameOf m := rfl
    unfold resolveRelative
    dsimp only
    rw [hpackage, hname]
    cases s.packageOf? m with
    | none => rfl
    | some p =>
      dsimp only
      split
      · rfl
      · cases ModulePath.join (ModulePath.directory (s.nameOf m)) reference with
        | none => rfl
        | some path => exact s.loadModule_reframe f g p (some path)

theorem resolveNamed_reframe (hcontext : (f s.config).context = s.config.context)
    (hfind : ∀ name selector, Finder.findFirst (g s.files) name selector s.finders =
      Finder.findFirst s.files name selector s.finders)
    (named : Reference) (origin : Option ModuleId) :
    (s.reframe f g).resolveNamed named origin =
      ((s.resolveNamed named origin).1, (s.resolveNamed named origin).2.reframe f g) := by
  have hselector : (origin.bind (s.reframe f g).packageOf?).bind
      (·.selectorFor? named.package.fullName) =
        (origin.bind s.packageOf?).bind (·.selectorFor? named.package.fullName) := rfl
  unfold resolveNamed
  dsimp only
  rw [hselector, loadPackage_reframe hcontext hfind]
  cases s.loadPackage named.package.fullName
      ((origin.bind s.packageOf?).bind (·.selectorFor? named.package.fullName)) with
  | mk result u =>
    cases result with
    | error error => rfl
    | ok p => exact u.loadModule_reframe f g p named.module

/-- A reference resolves in the same way where predicates, finders and the observer answer in the
same way. -/
theorem resolve_reframe (hcontext : (f s.config).context = s.config.context)
    (hfind : ∀ name selector, Finder.findFirst (g s.files) name selector s.finders =
      Finder.findFirst s.files name selector s.finders)
    {observer : Option (Observer μ)} {origin : Option ModuleId}
    (hobserve : ∀ observe, observer = some observe → ∀ name,
      observe (s.reframe f g) origin name = observe s origin name)
    (reference : String) :
    (s.reframe f g).resolve observer reference origin =
      ((s.resolve observer reference origin).1,
        (s.resolve observer reference origin).2.reframe f g) := by
  unfold resolve
  split
  · exact s.resolveRelative_reframe f g reference origin
  · cases Reference.parse reference with
    | error error => rfl
    | ok named =>
      dsimp only
      split
      · rfl
      · cases observer with
        | none => exact resolveNamed_reframe hcontext hfind named origin
        | some observe =>
          dsimp only
          rw [hobserve observe rfl]
          cases observe s origin named.package.fullName with
          | mk answer memory =>
            cases answer with
            | error error => rfl
            | ok =>
              exact resolveNamed_reframe (s := { s with memory }) hcontext hfind named origin

end Lading.Session
