import Lading.Proofs.Json.Fields
import Lading.Proofs.Package.Name
import Lading.Proofs.Package.ReferenceText
import Lading.Proofs.Session.Discipline
import Lading.Session.Script

namespace Lading

variable {μ : Type}

theorem Reference.isName_of_parse {text path : String} {named : Reference}
    (h : parse text = .ok named) (hpath : path ∈ named.module) : ModulePath.IsName path := by
  obtain ⟨parts, hparts, -, rfl⟩ := parse_eq_ok_iff.1 h
  obtain ⟨s, hs, rfl⟩ := Option.map_eq_some_iff.1 hpath
  obtain ⟨segments, hsegments, rfl⟩ := Option.map_eq_some_iff.1 hs
  obtain ⟨hne, hwords⟩ := hparts.module segments hsegments
  obtain ⟨-, -, -, hsplit⟩ := path_facts hne hwords
  rw [ModulePath.IsName, String.toList_ofList, ModulePath.segments, hsplit]
  exact fun segment hsegment ↦ PackageName.isStep_of_isWord (hwords segment hsegment)

namespace Package

/-- Nothing that a package has for a main module is a path to one. -/
def Mainless (p : Package) : Prop := ∀ main, ModulePath.normalize p.main = some main → main = ""

theorem mainless_of_target {p : Package} {path : Option String} {misuse : Misuse}
    (hpath : ∀ path' ∈ path, ModulePath.IsName path') (h : p.target path = .error misuse) :
    p.Mainless := by
  have hnormal : ∃ name, ModulePath.normalize (path.getD "") = some name := by
    cases path with
    | none => exact ⟨"", rfl⟩
    | some path' => exact ⟨path', ModulePath.normalize_of_isName (hpath path' rfl)⟩
  obtain ⟨name, hname⟩ := hnormal
  intro main hmain
  rw [target, hname] at h
  dsimp only at h
  split at h
  · cases h
  · rw [hmain] at h
    dsimp only at h
    split at h
    · assumption
    · cases h

end Package

namespace Session

structure Untouched (s t : Session μ) : Prop extends Quiet s t where
  packages_eq : t.packages = s.packages
  modules_eq : t.modules = s.modules

/-- There is one package more, which has no modules yet and stands under the full name that its
manifest declares. -/
structure GainsPackage (s t : Session μ) (p : Package) : Prop extends Quiet s t where
  genuine : p.Genuine
  empty : p.modules = []
  fresh : s.package? p.name = none
  packages_eq : t.packages = s.packages ++ [(p.name, p)]
  modules_eq : t.modules = s.modules

structure GainsModule (s t : Session μ) (m : ModuleId) : Prop extends Quiet s t where
  new : m = ⟨s.modules.length⟩
  keys_eq : t.packages.keys = s.packages.keys
  made : ∃ p name, s.package? p.name = some p ∧ p.modules.get? name = none ∧
    t.packages = s.packages.put p.name { p with modules := p.modules.put name m } ∧
    t.modules = s.modules ++ [⟨name, some p.name, .unexecuted, []⟩]

/-- There is one package more, which a reference without a version or a member asked for. It was
loaded, and has no main module. -/
structure Strands (s t : Session μ) (origin : Option ModuleId) (reference : String)
    (p : Package) : Prop extends GainsPackage s t p where
  named : ¬isRelative reference
  loaded : ∃ named memory, Reference.parse reference = .ok named ∧
    named.selector = none ∧ named.member = none ∧
    Session.loadPackage { s with memory } named.package.fullName
      ((origin.bind s.packageOf?).bind (·.selectorFor? named.package.fullName)) = (.ok p, t)
  mainless : p.Mainless

section Additions

variable {s t u : Session μ} {p : Package}

theorem Untouched.refl (s : Session μ) : Untouched s s := ⟨.refl s, rfl, rfl⟩

theorem Untouched.trans (h : Untouched s t) (h' : Untouched t u) : Untouched s u :=
  ⟨h.toQuiet.trans h'.toQuiet, h'.packages_eq.trans h.packages_eq,
    h'.modules_eq.trans h.modules_eq⟩

theorem GainsPackage.of_untouched (h : Untouched s t) (h' : GainsPackage t u p) :
    GainsPackage s u p where
  toQuiet := h.toQuiet.trans h'.toQuiet
  genuine := h'.genuine
  empty := h'.empty
  fresh := by
    rw [package?, ← h.packages_eq]
    exact h'.fresh
  packages_eq := by rw [h'.packages_eq, h.packages_eq]
  modules_eq := h'.modules_eq.trans h.modules_eq

theorem gainsPackage_register (cache : PredicateCache) (warnings : List EvalError)
    (genuine : p.Genuine) (empty : p.modules = []) (fresh : s.package? p.name = none) :
    GainsPackage s (s.register p cache warnings) p where
  toQuiet := quiet_register cache warnings fresh
  genuine := genuine
  empty := empty
  fresh := fresh
  packages_eq := Entries.put_of_notMem (Entries.notMem_keys.2 fresh) p
  modules_eq := rfl

theorem gainsModule_create {name : String} (registered : s.package? p.name = some p)
    (fresh : p.modules.get? name = none) : GainsModule s (s.create p name) ⟨s.modules.length⟩ where
  toQuiet := quiet_create registered fresh
  new := rfl
  keys_eq := by
    have hkey : p.name ∈ s.packages.keys := by
      rw [Entries.mem_keys, show s.packages.get? p.name = some p from registered]
      rfl
    rw [create, Entries.keys_put, if_pos hkey]
  made := ⟨p, name, registered, fresh, rfl, rfl⟩

end Additions

structure Sparing (hooks : Hooks μ) (s : Session μ) : Prop where
  add : ∀ manifest r t, s.addPackage manifest = (r, t) →
    (∃ error, r = .error error ∧ Untouched s t) ∨
      ∃ p, r = .ok p ∧ p.manifest = manifest ∧ GainsPackage s t p
  load : ∀ name selector r t, s.loadPackage name selector = (r, t) →
    (∃ error, r = .error error ∧ Untouched s t) ∨
      ∃ p, r = .ok p ∧ p.name = name ∧ t.package? name = some p ∧
        (Untouched s t ∨ GainsPackage s t p)
  found : ∀ reference origin m t, s.resolve hooks.observer reference origin = (.ok m, t) →
    ∃ u, (Untouched s u ∨ ∃ p, GainsPackage s u p) ∧ (Untouched u t ∨ GainsModule u t m)
  failed : ∀ reference origin error t,
    s.resolve hooks.observer reference origin = (.error error, t) →
      Untouched s t ∨ ∃ p, Strands s t origin reference p
  require : ∀ reference origin, s.require hooks reference origin false =
    some (s.resolve hooks.observer reference origin)

section Sparing

variable {s t : Session μ}

theorem additions_of_addPackage {manifest : Manifest} {r : Except SessionError Package}
    (h : s.addPackage manifest = (r, t)) :
    (∃ error, r = .error error ∧ Untouched s t) ∨
      ∃ p, r = .ok p ∧ p.manifest = manifest ∧ GainsPackage s t p := by
  obtain ⟨error, cache, rfl, rfl⟩ | ⟨p, cache, warnings, rfl, hgenuine, hmanifest, hempty, hfresh,
    rfl⟩ := addPackage_cases h
  · exact .inl ⟨error, rfl, (Change.cache s cache).quiet, rfl, rfl⟩
  · exact .inr ⟨p, rfl, hmanifest, gainsPackage_register cache warnings hgenuine hempty hfresh⟩

theorem Named.additions_of_loadPackage (hs : s.Named) {name : String} {selector : Option Selector}
    {r : Except SessionError Package} (h : s.loadPackage name selector = (r, t)) :
    (∃ error, r = .error error ∧ Untouched s t) ∨
      ∃ p, r = .ok p ∧ p.name = name ∧ t.package? name = some p ∧
        (Untouched s t ∨ GainsPackage s t p) := by
  obtain ⟨error, rfl, rfl⟩ | ⟨error, _, _, rfl, rfl⟩ | ⟨p, rfl, hp, rfl, -⟩ |
    ⟨_, _, -, -, -, hadd⟩ := loadPackage_cases h
  · exact .inl ⟨error, rfl, .refl _⟩
  · exact .inl ⟨error, rfl, (Change.record s rfl).quiet, rfl, rfl⟩
  · exact .inr ⟨p, rfl, hs name p hp, hp, .inl (.refl _)⟩
  · obtain ⟨error, rfl, hsame⟩ | ⟨p, rfl, -, hgains⟩ := additions_of_addPackage hadd
    · exact .inl ⟨error, rfl, hsame⟩
    · obtain ⟨hp, hname⟩ := hs.package?_of_loadPackage h
      exact .inr ⟨p, rfl, hname, hp, .inr hgains⟩

theorem additions_of_loadModule {p : Package} (registered : s.package? p.name = some p)
    {path : Option String} {m : ModuleId} (h : s.loadModule p path = (.ok m, t)) :
    Untouched s t ∨ GainsModule s t m := by
  obtain ⟨_, -, hr, -⟩ | ⟨name, -, ⟨_, -, -, rfl⟩ | ⟨hfresh, hr, rfl⟩⟩ := loadModule_cases h
  · cases hr
  · exact .inl (.refl _)
  · cases hr
    exact .inr (gainsModule_create registered hfresh)

theorem untouched_memory (s : Session μ) (memory : μ) : Untouched s { s with memory } :=
  ⟨(Change.memory s memory).quiet, rfl, rfl⟩

theorem Named.additions_of_found (hs : s.Named) {observer : Option (Observer μ)}
    {reference : String} {origin : Option ModuleId} {m : ModuleId}
    (h : s.resolve observer reference origin = (.ok m, t)) :
    ∃ u, (Untouched s u ∨ ∃ p, GainsPackage s u p) ∧ (Untouched u t ∨ GainsModule u t m) := by
  obtain ⟨_, _, hr, -⟩ | ⟨_, p, path, -, -, hp, -, -, hmodule⟩ |
    ⟨named, memory, -, -, -, -, hnamed⟩ := resolve_cases h
  · cases hr
  · exact ⟨s, .inl (.refl s), additions_of_loadModule (hs.package?_of_packageOf? hp) hmodule⟩
  · have hs' : Named { s with memory } := hs
    obtain ⟨_, u, hload, ⟨_, -, hr, -⟩ | ⟨p, rfl, hmodule⟩⟩ := resolveNamed_cases hnamed
    · cases hr
    · obtain ⟨_, hr, -⟩ | ⟨_, hr, hname, hp, hgains⟩ := hs'.additions_of_loadPackage hload
      · cases hr
      · cases hr
        refine ⟨u, ?_, additions_of_loadModule (by rwa [hname]) hmodule⟩
        exact hgains.imp (untouched_memory s memory).trans
          fun hgains ↦ ⟨p, .of_untouched (untouched_memory s memory) hgains⟩

theorem Named.additions_of_failed (hs : s.Named) {observer : Option (Observer μ)}
    {reference : String} {origin : Option ModuleId} {error : SessionError}
    (h : s.resolve observer reference origin = (.error error, t)) :
    Untouched s t ∨ ∃ p, Strands s t origin reference p := by
  obtain ⟨_, memory, -, rfl⟩ | ⟨_, p, path, -, -, -, -, -, hmodule⟩ |
    ⟨named, memory, hrelative, hparse, hplain, -, hnamed⟩ := resolve_cases h
  · exact .inl (untouched_memory s memory)
  · obtain ⟨_, -, -, rfl⟩ | ⟨_, -, ⟨_, -, hr, -⟩ | ⟨-, hr, -⟩⟩ := loadModule_cases hmodule
    · exact .inl (.refl _)
    · cases hr
    · cases hr
  · have hs' : Named { s with memory } := hs
    have hmemory := untouched_memory s memory
    obtain ⟨_, u, hload, ⟨_, rfl, -, rfl⟩ | ⟨p, rfl, hmodule⟩⟩ := resolveNamed_cases hnamed
    · obtain ⟨_, -, hsame⟩ | ⟨_, hr, -⟩ := hs'.additions_of_loadPackage hload
      · exact .inl (hmemory.trans hsame)
      · cases hr
    · obtain ⟨_, htarget, -, rfl⟩ | ⟨_, -, ⟨_, -, hr, -⟩ | ⟨-, hr, -⟩⟩ := loadModule_cases hmodule
      · obtain ⟨_, hr, -⟩ | ⟨_, hr, -, -, hsame | hgains⟩ := hs'.additions_of_loadPackage hload
        · cases hr
        · exact .inl (hmemory.trans hsame)
        · cases hr
          -- The path of a reference cannot lead out of a package, so only its main module can.
          have hmain := Package.mainless_of_target
            (fun path hpath ↦ Reference.isName_of_parse hparse hpath) htarget
          obtain ⟨hselector, hmember⟩ := not_or.1 hplain
          exact .inr ⟨p, .of_untouched hmemory hgains, hrelative,
            ⟨named, memory, hparse, by simpa using hselector, by simpa using hmember, hload⟩, hmain⟩
      · cases hr
      · cases hr

end Sparing

open Point

/-- In sessions in which packages stand under their names, a package that cannot be loaded leaves no
trace in the registry; a reference adds at most its package and its module, and one that is not
resolved adds at most a package that has no main module. Runs lead to no other sessions. -/
theorem sparing (hooks : Hooks μ) :
    (∀ s : Session μ, s.Named → Sparing hooks s) ∧
      ∀ (s : Session μ) (p : Point μ), s.Opened → Steps hooks (idle s) p → p.session.Named := by
  constructor
  · intro s hs
    constructor
    case add => exact fun manifest r t ↦ additions_of_addPackage
    case load => exact fun name selector r t ↦ hs.additions_of_loadPackage
    case found => exact fun reference origin m t ↦ hs.additions_of_found
    case failed => exact fun reference origin error t ↦ hs.additions_of_failed
    case require =>
      intro reference origin
      unfold Session.require
      split <;> simp [*]
  · exact fun s p hs hsteps ↦ (hsteps.stacked hs.stacked).named

def barren : Session Unit :=
  .start (Config.standard "/work" "/home")
    (.ofTexts
      [("/r/p/nnp.json",
        "\x7b\"name\":\"p\",\"version\":\"1.0.0\",\"main\":\"../m\"\x7d")])
    [.directory "/r"] ()

theorem sparing_barren :
    ∃ error error' t u p, barren.resolve none "p" none = (.error error, t) ∧
      Strands barren t none "p" p ∧ t.Named ∧ t.loadPackage "q" none = (.error error', u) ∧
      Untouched t u := by
  let hooks : Hooks Unit := Script.idle none
  obtain ⟨hsparing, hnamed⟩ := sparing hooks
  have hfails : (barren.resolve none "p" none).1.toOption = none ∧
      (barren.resolve none "p" none).2.packages.keys = ["p"] ∧
      ((barren.resolve none "p" none).2.loadPackage "q" none).1.toOption.isNone := by
    decide +kernel
  obtain ⟨hresolve, hkeys, hload⟩ := hfails
  obtain ⟨error, hresolve⟩ := error_of_toOption_fst hresolve
  obtain ⟨error', hload⟩ := error_of_toOption_fst (Option.isNone_iff_eq_none.1 hload)
  have hsteps : Steps hooks (idle barren) (idle (barren.resolve none "p" none).2) :=
    .single (.find barren "p" none)
  have ht := hnamed barren _ (.start ..) hsteps
  obtain hsame | ⟨p, hstrands⟩ := (hsparing barren nofun).failed _ _ _ _ hresolve
  · rw [hsame.packages_eq] at hkeys
    exact absurd hkeys (by decide)
  · obtain ⟨_, -, hsame⟩ | ⟨_, hr, -⟩ := (hsparing _ ht).load _ _ _ _ hload
    · exact ⟨error, error', _, _, p, hresolve, hstrands, ht, hload, hsame⟩
    · cases hr

end Session

end Lading
