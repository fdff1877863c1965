import Lading.Proofs.Json.Fields
import Lading.Proofs.Manifest.Validation
import Lading.Proofs.Results
import Lading.Proofs.Session.Invariant

namespace Lading

variable {μ : Type}

theorem Finder.find_of_findFirst {files : FileTree} {name : String} {selector : Selector}
    {finders : List Finder} {manifest : Manifest}
    (h : findFirst files name selector finders = .ok manifest) :
    ∃ finder ∈ finders, finder.find files name selector = .ok manifest := by
  induction finders with
  | nil => cases h
  | cons finder finders ih =>
    rw [findFirst] at h
    split at h
    · obtain ⟨finder', hmem, hfind⟩ := ih h
      exact ⟨finder', List.mem_cons_of_mem _ hmem, hfind⟩
    · exact ⟨finder, List.mem_cons_self .., h⟩

theorem Finder.of_findInstalled {files : FileTree} {root name : String} {selector : Selector}
    {manifest : Manifest} (h : findInstalled files root name selector = .ok manifest) :
    ∃ parsed version, PackageName.parse name = .ok parsed ∧
      Manifest.load files (FilePath.join (parsed.directory root) Manifest.fileName) =
        .ok manifest ∧
      manifest.version = .ok version ∧ selector.accepts version := by
  unfold findInstalled at h
  obtain ⟨parsed, hparse, h⟩ := ok_of_bind h
  dsimp only at h
  split at h
  · cases h
  · obtain ⟨loaded, hload, h⟩ := ok_of_bind h
    obtain ⟨found, -, h⟩ := ok_of_bind h
    split at h
    · cases h
    · obtain ⟨version, hversion, h⟩ := ok_of_bind h
      split at h
      · cases h
      · rename_i haccepts
        cases h
        exact ⟨parsed, version, ok_of_mapError hparse, ok_of_mapError hload,
          ok_of_mapError hversion, by simpa using haccepts⟩

namespace Package

/-- The active dependencies of a package have a line for another one, which asks for versions of a
registry. -/
def Declares (p : Package) (name : String) (selector : Selector) : Prop :=
  ∃ lines line requirement, p.effective.get? "dependencies" = some (.object lines) ∧
    Entries.get? lines name = some (.string line) ∧
    Requirement.parseNamed name line = .ok requirement ∧ requirement.selector? = some selector

theorem dependency?_of_mapM {lines : Json.Fields} {dependencies : List (String × Requirement)}
    (h : lines.mapM (fun (name, line) ↦ Manifest.dependency name line) = .ok dependencies)
    {name line : String} {requirement : Requirement}
    (hline : Entries.get? lines name = some (.string line))
    (hparse : Requirement.parseNamed name line = .ok requirement) :
    Entries.get? dependencies name = some requirement := by
  induction lines generalizing dependencies with
  | nil => cases hline
  | cons field lines ih =>
    obtain ⟨key, value⟩ := field
    rw [List.mapM_cons] at h
    obtain ⟨⟨key', first⟩, hfirst, h⟩ := ok_of_bind h
    obtain ⟨rest, hrest, h⟩ := ok_of_bind h
    cases h
    obtain ⟨rfl, line', rfl, hparse'⟩ := Manifest.of_dependency hfirst
    rw [Entries.get?_cons] at hline ⊢
    split at hline
    · rename_i hkey
      cases hline
      rw [hkey, hparse] at hparse'
      cases hparse'
      rw [if_pos hkey]
    · rename_i hkey
      rw [if_neg hkey]
      exact ih hrest hline

theorem Genuine.selectorFor? {p : Package} (hp : p.Genuine) {name : String} {selector : Selector}
    (h : p.Declares name selector) : p.selectorFor? name = some selector := by
  obtain ⟨lines, line, requirement, hlines, hline, hparse, hselector⟩ := h
  have hdependencies := hp.dependencies
  rw [Manifest.dependencies, hlines] at hdependencies
  have hfound : p.dependency? name = some requirement :=
    dependency?_of_mapM hdependencies hline hparse
  rw [Package.selectorFor?, hfound]
  exact hselector

end Package

namespace Session

def Finds (s : Session μ) (manifest : Manifest) : Prop :=
  ∃ name selector, Finder.findFirst s.files name selector s.finders = .ok manifest

/-- The packages after something was loaded: those of before, which may have got modules, and
packages of manifests of some kind. -/
def Registers (Source : Manifest → Prop) (s t : Session μ) : Prop :=
  ∀ name q, t.package? name = some q →
    (∃ p, s.package? name = some p ∧ p.Grows q) ∨ q.Genuine ∧ Source q.manifest

namespace Registers

variable {Source : Manifest → Prop} {s t u : Session μ}

theorem of_eq (h : t.packages = s.packages) : Registers Source s t := by
  intro name q hq
  rw [package?, h] at hq
  exact .inl ⟨q, hq, .refl q⟩

theorem trans (h : Registers Source s t) (h' : Registers Source t u) : Registers Source s u := by
  intro name r hr
  rcases h' name r hr with ⟨q, hq, hqr⟩ | hr
  · rcases h name q hq with ⟨p, hp, hpq⟩ | ⟨hgenuine, hsource⟩
    · exact .inl ⟨p, hp, hpq.trans hqr⟩
    · exact .inr ⟨hqr.genuine hgenuine, hqr.manifest_eq ▸ hsource⟩
  · exact .inr hr

theorem mono {Source' : Manifest → Prop} (h : Registers Source s t)
    (hsource : ∀ manifest, Source manifest → Source' manifest) : Registers Source' s t :=
  fun name q hq ↦ (h name q hq).imp_right fun ⟨hgenuine, h⟩ ↦ ⟨hgenuine, hsource _ h⟩

end Registers

section Load

variable {s t : Session μ}

theorem registers_of_addPackage {manifest : Manifest} {r : Except SessionError Package}
    (h : s.addPackage manifest = (r, t)) : Registers (· = manifest) s t := by
  obtain ⟨_, _, -, rfl⟩ | ⟨p, cache, warnings, -, hgenuine, hmanifest, -, -, rfl⟩ :=
    addPackage_cases h
  · exact .of_eq rfl
  · intro name q hq
    rw [package?_register] at hq
    split at hq
    · cases hq
      exact .inr ⟨hgenuine, hmanifest⟩
    · exact .inl ⟨q, hq, .refl q⟩

theorem registers_of_loadPackage {name : String} {selector : Option Selector}
    {r : Except SessionError Package} (h : s.loadPackage name selector = (r, t)) :
    Registers s.Finds s t := by
  obtain ⟨_, -, rfl⟩ | ⟨_, _, _, -, rfl⟩ | ⟨_, -, -, rfl, -⟩ | ⟨manifest, _, hfind, -, -, hadd⟩ :=
    loadPackage_cases h
  · exact .of_eq rfl
  · exact .of_eq rfl
  · exact .of_eq rfl
  · refine (registers_of_addPackage hadd).mono ?_
    rintro _ rfl
    exact ⟨name, _, hfind⟩

theorem registers_of_loadModule {Source : Manifest → Prop} {p : Package}
    (registered : s.package? p.name = some p) {path : Option String}
    {r : Except SessionError ModuleId} (h : s.loadModule p path = (r, t)) :
    Registers Source s t := by
  obtain ⟨_, -, -, rfl⟩ | ⟨name, -, ⟨_, -, -, rfl⟩ | ⟨hfresh, -, rfl⟩⟩ := loadModule_cases h
  · exact .of_eq rfl
  · exact .of_eq rfl
  · intro other q hq
    rw [package?_create] at hq
    split at hq
    · rename_i hname
      cases hq
      exact .inl ⟨p, hname ▸ registered, grows_create s hfresh⟩
    · exact .inl ⟨q, hq, .refl q⟩

theorem Named.registers_of_resolve (hs : s.Named) {observer : Option (Observer μ)}
    {reference : String} {origin : Option ModuleId} {r : Except SessionError ModuleId}
    (h : s.resolve observer reference origin = (r, t)) : Registers s.Finds s t := by
  obtain ⟨_, memory, -, rfl⟩ | ⟨m, p, path, -, -, hp, -, -, hmodule⟩ |
    ⟨named, memory, -, -, -, -, hnamed⟩ := resolve_cases h
  · exact .of_eq rfl
  · exact registers_of_loadModule (hs.package?_of_packageOf? hp) hmodule
  · have hs' : Named { s with memory } := hs
    have hmemory : Registers s.Finds s { s with memory } := .of_eq rfl
    obtain ⟨_, u, hload, ⟨_, -, -, rfl⟩ | ⟨p, rfl, hmodule⟩⟩ := resolveNamed_cases hnamed
    · exact hmemory.trans (registers_of_loadPackage hload)
    · obtain ⟨hp, hname⟩ := hs'.package?_of_loadPackage hload
      exact (hmemory.trans (registers_of_loadPackage hload)).trans
        (registers_of_loadModule (by rwa [hname]) hmodule)

theorem Change.nodup_packages (h : Change s t) (nodup : s.packages.keys.Nodup) :
    t.packages.keys.Nodup := by
  cases h with
  | cache | memory | record => exact nodup
  | register | create => exact Entries.nodup_put nodup ..

theorem Changes.nodup_packages (h : Changes s t) (nodup : s.packages.keys.Nodup) :
    t.packages.keys.Nodup := by
  induction h with
  | refl => exact nodup
  | tail _ h ih => exact h.nodup_packages ih

end Load

/-- A run of modules, which registers nothing but what the finders answer with. -/
structure Loads (s t : Session μ) : Prop extends Extends s t where
  sound : t.Sound
  registers : Registers s.Finds s t

theorem Extends.finds_eq {s t : Session μ} (h : Extends s t) : t.Finds = s.Finds := by
  funext manifest
  simp only [Finds, h.files, h.finders]

namespace Loads

variable {s t u : Session μ}

theorem refl (hs : s.Sound) : Loads s s := ⟨.refl s, hs, .of_eq rfl⟩

theorem trans (h : Loads s t) (h' : Loads t u) : Loads s u :=
  ⟨h.toExtends.trans h'.toExtends, h'.sound,
    h.registers.trans (h.toExtends.finds_eq ▸ h'.registers)⟩

theorem of_changes (hs : s.Sound) (hc : s.Changes t) (h : t.packages = s.packages) : Loads s t :=
  ⟨hc.quiet.toExtends, hs.changes hc, .of_eq h⟩

theorem of_resolve (hs : s.Sound) {observer : Option (Observer μ)} {reference : String}
    {origin : Option ModuleId} {r : Except SessionError ModuleId}
    (h : s.resolve observer reference origin = (r, t)) : Loads s t :=
  have hc := changes_of_resolve hs.coherent h
  ⟨hc.quiet.toExtends, hs.changes hc, Named.registers_of_resolve hs.coherent.named h⟩

end Loads

theorem loads_of_run {observer : Option (Observer μ)}
    {execute : Session μ → ModuleId → Run μ Unit}
    (hexecute : ∀ s t n r, s.Sound → s.Knows n → execute s n = some (r, t) → Loads s t)
    {m : ModuleId} {b : Body μ} {s t : Session μ} {r : Except SessionError Unit} (hs : s.Sound)
    (h : b.run observer execute m s = some (r, t)) : Loads s t := by
  induction b generalizing s with
  | finish | fail error =>
    cases h
    exact .refl hs
  | assign n key value next ih =>
    have hset : Loads s (s.setExport n key value) :=
      ⟨s.extends_setExport n key value, hs.setExport n key value, .of_eq rfl⟩
    exact hset.trans (ih hset.sound h)
  | remember change next ih =>
    have hmemory : Loads s { s with memory := change s.memory } :=
      .of_changes hs (.single (.memory s _)) rfl
    exact hmemory.trans (ih hmemory.sound h)
  | inspect next ih => exact ih s hs h
  | resolve reference next ih =>
    have hresolve : Loads s (s.resolve observer reference (some m)).2 := .of_resolve hs rfl
    exact hresolve.trans (ih _ hresolve.sound h)
  | require reference next ih =>
    obtain ⟨error, u, hr, h⟩ | ⟨n, u, result, v, hr, hv, h⟩ := Body.run_require_cases h
    · have hresolve := Loads.of_resolve hs hr
      exact hresolve.trans (ih _ hresolve.sound h)
    · have hresolve := Loads.of_resolve hs hr
      have hn := knows_of_resolve hs.coherent hr
      have hexecute := hexecute _ _ _ _ hresolve.sound hn hv
      exact (hresolve.trans hexecute).trans (ih _ hexecute.sound h)

theorem packages_meetCycle (s : Session μ) (m : ModuleId) :
    (s.meetCycle m).2.packages = s.packages := by
  dsimp only [meetCycle]
  split <;> rfl

theorem loads_of_execute {hooks : Hooks μ} {depth : Nat} {s t : Session μ} {m : ModuleId}
    {r : Except SessionError Unit} (hs : s.Sound) (hm : s.Knows m)
    (h : execute hooks depth s m = some (r, t)) : Loads s t := by
  induction depth using Nat.strongRecOn generalizing s t m r with
  | ind depth ih =>
    obtain ⟨ht, -, hlater⟩ := execute_sound hs hm h
    refine ⟨hlater.toExtends, ht, ?_⟩
    obtain ⟨-, -, rfl⟩ | ⟨-, hcycle⟩ | ⟨hm', d, result, u, rfl, hu, hsettle⟩ := execute_cases h
    · exact .of_eq rfl
    · have hpackages := s.packages_meetCycle m
      rw [hcycle] at hpackages
      exact .of_eq hpackages
    · have hrun := loads_of_run (fun s t n r hs hn h ↦ ih d (Nat.lt_succ_self d) hs hn h)
        (hs.begin hm hm') hu
      have hbegin : Registers s.Finds s (s.begin m) := .of_eq rfl
      have hend : Registers s.Finds u t := by
        apply Registers.of_eq
        cases result <;> cases hsettle <;> rfl
      exact (hbegin.trans ((s.extends_begin m).finds_eq ▸ hrun.registers)).trans hend

theorem loads_of_require {hooks : Hooks μ} {s t : Session μ} {reference : String}
    {origin : Option ModuleId} {run : Bool} {r : Except SessionError ModuleId} (hs : s.Sound)
    (h : s.require hooks reference origin run = some (r, t)) : Loads s t := by
  obtain ⟨error, hr, -⟩ | ⟨m, u, hr, ⟨-, -, rfl⟩ | ⟨-, result, hu, -⟩⟩ := require_cases h
  · exact .of_resolve hs hr
  · exact .of_resolve hs hr
  · have hresolve := Loads.of_resolve hs hr
    exact hresolve.trans (loads_of_execute hresolve.sound (knows_of_resolve hs.coherent hr) hu)

end Session

theorem Point.Step.registers {hooks : Hooks μ} {p q : Point μ} (h : Step hooks p q)
    (hp : p.session.Named) : p.session.Registers (fun _ ↦ True) q.session := by
  have all {Source : Manifest → Prop} {s t : Session μ} (h : s.Registers Source t) :
      s.Registers (fun _ ↦ True) t := h.mono fun _ _ ↦ trivial
  cases h with
  | load s name selector => exact all (Session.registers_of_loadPackage rfl)
  | add s manifest => exact all (Session.registers_of_addPackage rfl)
  | find | resolve => exact all (hp.registers_of_resolve rfl)
  | require h | refuse h | call h => exact all (hp.registers_of_resolve h)
  | @cycle s w m h => exact .of_eq (s.packages_meetCycle m)
  | _ => exact .of_eq rfl

end Lading
