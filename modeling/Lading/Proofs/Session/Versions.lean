import Lading.Session.DataModule
import Lading.Proofs.Files.Tree
import Lading.Proofs.Session.Invariant
import Lading.Proofs.Session.Origin
import Lading.Proofs.Session.Shelf

namespace Lading

variable {μ : Type}

namespace Finder

/-- A finder that is not of one's own making. -/
def Standard : Finder → Prop
  | .directory _ => True
  | .memory shelf => shelf.Stocked
  | .custom _ => False

theorem Standard.accepts {finder : Finder} (h : finder.Standard) {files : FileTree} {name : String}
    {selector : Selector} {manifest : Manifest}
    (hfind : finder.find files name selector = .ok manifest) :
    ∃ version, manifest.version = .ok version ∧ selector.accepts version := by
  cases finder with
  | directory root =>
    obtain ⟨-, version, -, -, hversion⟩ := of_findInstalled hfind
    exact ⟨version, hversion⟩
  | memory shelf =>
    rw [Finder.find] at hfind
    split at hfind
    · rename_i manifest' hshelf
      cases hfind
      exact Shelf.Stocked.accepts h hshelf
    · cases hfind
  | custom => exact h.elim

end Finder

namespace Session

section Load

variable {s t : Session μ}

theorem accepts_of_loadPackage (hfinders : ∀ finder ∈ s.finders, finder.Standard) {name : String}
    {selector : Option Selector} {p : Package} (h : s.loadPackage name selector = (.ok p, t))
    {wanted : Selector} (hwanted : selector = some wanted) : wanted.accepts p.version := by
  obtain ⟨_, herror, -⟩ | ⟨_, _, _, herror, -⟩ | ⟨_, hr, -, -, haccepts⟩ |
    ⟨manifest, _, hfind, -, -, hadd⟩ := loadPackage_cases h
  · cases herror
  · cases herror
  · cases hr
    exact haccepts wanted hwanted
  · rw [hwanted] at hfind
    obtain ⟨finder, hmem, hfound⟩ := Finder.find_of_findFirst hfind
    obtain ⟨version, hversion, haccepts⟩ := (hfinders finder hmem).accepts hfound
    obtain ⟨_, _, herror, -⟩ | ⟨q, _, _, hr, hgenuine, rfl, -⟩ := addPackage_cases hadd
    · cases herror
    · cases hr
      have hp := hgenuine.version
      rw [hversion] at hp
      cases hp
      exact haccepts

theorem packageOf?_of_loadModule (hs : s.Coherent) {p : Package}
    (registered : s.package? p.name = some p) {path : Option String} {m : ModuleId}
    (h : s.loadModule p path = (.ok m, t)) : ∃ q, t.packageOf? m = some q ∧ p.Grows q := by
  obtain ⟨_, -, herror, -⟩ | ⟨name, -, ⟨n, hn, hr, rfl⟩ | ⟨hfresh, hr, rfl⟩⟩ :=
    loadModule_cases h
  · cases herror
  · cases hr
    obtain ⟨module, hmodule, -, hpackage⟩ := hs.cached p.name p name m registered hn
    exact ⟨p, packageOf?_eq_some.2 ⟨module, _, hmodule, hpackage, registered⟩, .refl p⟩
  · cases hr
    have hmodule : (s.create p name).module? ⟨s.modules.length⟩ =
        some ⟨name, some p.name, .unexecuted, []⟩ := by rw [module?_create, if_pos rfl]
    refine ⟨_, packageOf?_eq_some.2 ⟨_, p.name, hmodule, rfl, ?_⟩, grows_create s hfresh⟩
    rw [package?_create, if_pos rfl]

theorem accepts_of_resolve (hs : s.Coherent) (hfinders : ∀ finder ∈ s.finders, finder.Standard)
    {origin m : ModuleId} {p : Package} (hp : s.packageOf? origin = some p) (hgenuine : p.Genuine)
    {reference : String} (hreference : ¬isRelative reference) {named : Reference}
    (hparse : Reference.parse reference = .ok named) {wanted : Selector}
    (hdeclares : p.Declares named.package.fullName wanted) {observer : Option (Observer μ)}
    (h : s.resolve observer reference (some origin) = (.ok m, t)) :
    ∃ q, t.packageOf? m = some q ∧ q.name = named.package.fullName ∧ wanted.accepts q.version := by
  obtain ⟨_, _, herror, -⟩ | ⟨_, _, _, hrelative, -⟩ |
    ⟨named', memory, -, hparse', -, -, hnamed⟩ := resolve_cases h
  · cases herror
  · exact absurd hrelative hreference
  · rw [hparse] at hparse'
    cases hparse'
    have hs' : Coherent { s with memory } := (Change.memory s memory).coherent hs
    obtain ⟨_, u, hload, ⟨_, -, herror, -⟩ | ⟨q, rfl, hmodule⟩⟩ := resolveNamed_cases hnamed
    · cases herror
    · have hwanted : ((some origin).bind { s with memory }.packageOf?).bind
          (·.selectorFor? named.package.fullName) = some wanted := by
        have hp' : { s with memory }.packageOf? origin = some p := hp
        rw [Option.bind_some, hp', Option.bind_some, hgenuine.selectorFor? hdeclares]
      have haccepts := accepts_of_loadPackage (s := { s with memory }) hfinders hload hwanted
      obtain ⟨hq, hname⟩ := package?_of_loadPackage hs' hload
      have hu := (changes_of_loadPackage hload).coherent hs'
      obtain ⟨q', hq', hgrows⟩ := packageOf?_of_loadModule hu (by rwa [hname]) hmodule
      refine ⟨q', hq', hgrows.name_eq.trans hname, ?_⟩
      rw [hgrows.same]
      exact haccepts

end Load

structure Vetted (s : Session μ) : Prop where
  nodup : s.packages.keys.Nodup
  genuine : ∀ name p, s.package? name = some p → p.Genuine

theorem vetted_start (config : Config) (files : FileTree) (finders : List Finder) (memory : μ) :
    Vetted (start config files finders memory) :=
  ⟨List.nodup_nil, fun _ _ h ↦ by cases h⟩

end Session

open Point

variable {hooks : Hooks μ} {p q : Point μ}

theorem Point.Step.vetted (h : Step hooks p q) (hp : p.Sound) (hv : p.session.Vetted) :
    q.session.Vetted := by
  constructor
  case nodup =>
    obtain hc | ⟨m, key, value, hq⟩ | ⟨m, -, -, hq⟩ | ⟨m, b, r, -, hq⟩ :=
      h.session_cases hp.coherent.named hp.entered
    · exact hc.nodup_packages hv.nodup
    · rw [hq]
      exact hv.nodup
    · rw [hq]
      exact hv.nodup
    · rw [hq]
      cases r <;> exact hv.nodup
  case genuine =>
    intro name package hpackage
    rcases h.registers hp.coherent.named name package hpackage with
      ⟨before, hbefore, hgrows⟩ | ⟨hgenuine, -⟩
    · exact hgrows.genuine (hv.genuine name before hbefore)
    · exact hgenuine

theorem Point.Steps.vetted (h : Steps hooks p q) (hp : p.Sound) (hv : p.session.Vetted) :
    q.session.Vetted := by
  induction h with
  | refl => exact hv
  | tail hsteps h ih => exact h.vetted (Steps.sound hsteps hp) ih

structure Point.VersionSafe (hooks : Hooks μ) (p : Point μ) : Prop where
  named : ∀ name package, (name, package) ∈ p.session.packages → package.name = name ∧
    ∃ declared, package.manifest.name = .ok declared ∧ declared.fullName = name
  single : p.session.packages.keys.Nodup
  kept : ∀ q name package, Steps hooks p q → p.session.package? name = some package →
    ∃ package', q.session.package? name = some package' ∧ package.Grows package'
  loaded : ∀ name selector package t, p.session.loadPackage name selector = (.ok package, t) →
    package.name = name ∧ t.package? name = some package ∧
      ∀ wanted, selector = some wanted → wanted.accepts package.version
  /-- Where a package declares what versions of another one it needs, its modules get no other. -/
  resolved : ∀ origin requiring reference named wanted m t,
    p.session.packageOf? origin = some requiring → ¬Session.isRelative reference →
    Reference.parse reference = .ok named → requiring.Declares named.package.fullName wanted →
    p.session.resolve hooks.observer reference (some origin) = (.ok m, t) →
    ∃ package, t.packageOf? m = some package ∧ package.name = named.package.fullName ∧
      wanted.accepts package.version

/-- If the finders are directories and shelves, a name has one version at most at every point of
every run, which stays, and whoever asks for versions of a package gets one of these or nothing. -/
theorem versionSafe_of_steps {config : Config} {files : FileTree} {finders : List Finder}
    {memory : μ} (hfinders : ∀ finder ∈ finders, finder.Standard)
    (h : Steps hooks (idle (.start config files finders memory)) p) : VersionSafe hooks p := by
  have hstart : Point.Sound (idle (.start config files finders memory)) :=
    sound_idle (Session.sound_start ..) rfl
  have hp : p.Sound := h.sound hstart
  have hv : p.session.Vetted := h.vetted hstart (Session.vetted_start ..)
  have hstandard : ∀ finder ∈ p.session.finders, finder.Standard := by
    rw [(h.later hstart).finders]
    exact hfinders
  constructor
  case named =>
    intro name package hmem
    have hpackage := Entries.get?_of_mem hv.nodup hmem
    have hname := hp.coherent.named name package hpackage
    obtain ⟨declared, hdeclared, hfull⟩ := (hv.genuine name package hpackage).name
    exact ⟨hname, declared, hdeclared, hfull.trans hname⟩
  case single => exact hv.nodup
  case kept =>
    intro q name package hsteps hpackage
    exact (hsteps.later hp).packages name package hpackage
  case loaded =>
    intro name selector package t hload
    obtain ⟨hpackage, hname⟩ := Session.package?_of_loadPackage hp.coherent hload
    exact ⟨hname, hpackage, fun _ ↦ Session.accepts_of_loadPackage hstandard hload⟩
  case resolved =>
    intro origin requiring reference named wanted m t hrequiring hreference hparse hdeclares
    obtain ⟨_, name, _, _, hname⟩ := Session.packageOf?_eq_some.1 hrequiring
    exact Session.accepts_of_resolve hp.coherent hstandard hrequiring
      (hv.genuine name requiring hname) hreference hparse hdeclares

def apps : FileTree :=
  .ofTexts
    [("/r/a/nnp.json",
        "\x7b\"name\":\"a\",\"version\":\"1.0.0\",\"dependencies\":\x7b\"q\":\"^1.2.0\"\x7d\x7d"),
      ("/r/b/nnp.json",
        "\x7b\"name\":\"b\",\"version\":\"1.0.0\",\"dependencies\":\x7b\"q\":\">=1.1.0\"\x7d\x7d"),
      ("/r/c/nnp.json",
        "\x7b\"name\":\"c\",\"version\":\"1.0.0\",\"dependencies\":\x7b\"q\":\">=2.0.0\"\x7d\x7d")]

def library : Shelf :=
  .ofManifests <| ["1.2.0", "1.3.0", "2.0.0"].map fun version ↦
    { document := [("name", .string "q"), ("version", .string version)], directory := none }

def appsFound (s : Session Unit) (reference : String) (origin : Option ModuleId) : Session Unit :=
  (s.resolve none reference origin).2

def appsLoaded : Session Unit :=
  let start := .start (Config.standard "/work" "/home") apps [.memory library, .directory "/r"] ()
  appsFound (appsFound (appsFound start "a" none) "b" none) "c" none

theorem resolve_appsFound {s : Session Unit} {reference : String} {origin : Option ModuleId}
    {m : ModuleId} (h : (s.resolve none reference origin).1.toOption = some m) :
    s.resolve none reference origin = (.ok m, appsFound s reference origin) :=
  eq_of_toOption_fst h

theorem versionSafe_apps :
    ∃ t u, appsLoaded.resolve none "q" (some ⟨0⟩) = (.ok ⟨3⟩, t) ∧
      t.resolve none "q" (some ⟨1⟩) = (.ok ⟨3⟩, u) ∧
      VersionSafe (DataModule.hooks none) (idle u) ∧
      (u.packageOf? ⟨3⟩).map (toString ·.version) = some "1.3.0" ∧
      (u.resolve none "q" (some ⟨2⟩)).1.toOption = none := by
  have hfinders : ∀ finder ∈ [Finder.memory library, .directory "/r"], finder.Standard := by
    simp [Finder.Standard, library, Shelf.stocked_ofManifests]
  have find (s : Session Unit) (reference : String) (origin : Option ModuleId) :
      Steps (DataModule.hooks none) (idle s) (idle (appsFound s reference origin)) :=
    .single (.find s reference origin)
  have hsteps : Steps (DataModule.hooks none) _ (idle appsLoaded) :=
    ((find _ "a" none).trans (find _ "b" none)).trans (find _ "c" none)
  have hruns :
      (appsLoaded.resolve none "q" (some ⟨0⟩)).1.toOption = some ⟨3⟩ ∧
        ((appsFound appsLoaded "q" (some ⟨0⟩)).resolve none "q" (some ⟨1⟩)).1.toOption =
          some ⟨3⟩ ∧
        ((appsFound (appsFound appsLoaded "q" (some ⟨0⟩)) "q" (some ⟨1⟩)).packageOf? ⟨3⟩).map
          (toString ·.version) = some "1.3.0" ∧
        ((appsFound (appsFound appsLoaded "q" (some ⟨0⟩)) "q" (some ⟨1⟩)).resolve none "q"
          (some ⟨2⟩)).1.toOption = none := by
    decide +kernel
  obtain ⟨hfirst, hsecond, hversion, hthird⟩ := hruns
  have hsafe := versionSafe_of_steps hfinders
    ((hsteps.trans (find _ "q" (some ⟨0⟩))).trans (find _ "q" (some ⟨1⟩)))
  exact ⟨_, _, resolve_appsFound hfirst, resolve_appsFound hsecond, hsafe, hversion, hthird⟩

end Lading
