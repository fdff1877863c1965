import Lading.Proofs.Package.Name
import Lading.Proofs.Session.Origin
import Lading.Proofs.Session.Reframe

namespace Lading

variable {μ : Type}

namespace FileTree

variable {files files' : FileTree} {path : String}

theorem isFile_congr (h : files'.find path = files.find path) :
    files'.isFile path = files.isFile path := by
  simp only [isFile, h]

theorem read_congr (h : files'.find path = files.find path) :
    files'.read path = files.read path := by
  simp only [read, h]

end FileTree

theorem Manifest.load_congr {files files' : FileTree} {path : String}
    (hdirectory : files'.workingDirectory = files.workingDirectory)
    (h : files'.find path = files.find path) : load files' path = load files path := by
  simp only [load, FileTree.isFile_congr h, FileTree.read_congr h, FileTree.containingDirectory,
    hdirectory]

theorem Manifest.directory_of_load {files : FileTree} {path : String} {manifest : Manifest}
    (h : load files path = .ok manifest) :
    manifest.directory = some (files.containingDirectory path) := by
  unfold load ofJson at h
  split at h
  · cases h
  · split at h
    · cases h
    · split at h
      · split at h
        · cases h
          rfl
        · cases h
      · cases h

def PackageName.manifestPath (n : PackageName) (root : String) : String :=
  FilePath.join (n.directory root) Manifest.fileName

def Observer.Blind (observe : Observer μ) : Prop :=
  ∀ (s : Session μ) files origin name, observe { s with files } origin name = observe s origin name

namespace Session

def withFiles (s : Session μ) (files : FileTree) : Session μ := { s with files }

/-- The files that packages below some roots could have, and those that modules of the packages
could have that are registered. -/
inductive Contained (roots : List String) (s : Session μ) : String → Prop
  | manifest {root : String} {n : PackageName} (hroot : root ∈ roots) (hn : n.IsPlain) :
      Contained roots s (n.manifestPath root)
  | module {name directory : String} {p : Package} {steps : List String}
      (registered : s.package? name = some p) (located : p.manifest.directory = some directory)
      (hne : steps ≠ []) (hsteps : ∀ step ∈ steps, ModulePath.IsStep step.toList) :
      Contained roots s (FilePath.descend directory steps ++ ".json")

structure Agrees (roots : List String) (s : Session μ) (files : FileTree) : Prop where
  workingDirectory : files.workingDirectory = s.files.workingDirectory
  find : ∀ path, s.Contained roots path → files.find path = s.files.find path

variable {roots : List String} {s t : Session μ} {files : FileTree}

theorem Contained.extends {path : String} (h : Extends s t) (hpath : s.Contained roots path) :
    t.Contained roots path := by
  cases hpath with
  | manifest hroot hn => exact .manifest hroot hn
  | module registered located hne hsteps =>
    obtain ⟨q, hq, hgrows⟩ := h.packages _ _ registered
    exact .module hq (hgrows.manifest_eq ▸ located) hne hsteps

theorem Agrees.extends (h : Extends s t) (ht : t.Agrees roots files) : s.Agrees roots files :=
  ⟨ht.workingDirectory.trans (by rw [h.files]),
    fun path hpath ↦ (ht.find path (hpath.extends h)).trans (by rw [h.files])⟩

theorem Agrees.findInstalled {root : String} (h : s.Agrees roots files) (hroot : root ∈ roots)
    (name : String) (selector : Selector) :
    Finder.findInstalled files root name selector =
      Finder.findInstalled s.files root name selector := by
  cases hparse : PackageName.parse name with
  | error error => simp only [Finder.findInstalled, hparse]; rfl
  | ok n =>
    have hfind := h.find _ (.manifest hroot (PackageName.isPlain_of_parse hparse))
    have hload := Manifest.load_congr h.workingDirectory hfind
    have hfile := FileTree.isFile_congr hfind
    unfold PackageName.manifestPath at hload hfile
    simp only [Finder.findInstalled, hparse, Except.mapError, bind, Except.bind, hfile, hload]

theorem Agrees.findFirst (h : s.Agrees roots files) (name : String) (selector : Selector)
    {roots' : List String} (hroots : ∀ root ∈ roots', root ∈ roots) :
    Finder.findFirst files name selector (roots'.map .directory) =
      Finder.findFirst s.files name selector (roots'.map .directory) := by
  induction roots' with
  | nil => rfl
  | cons root roots' ih =>
    have hfind : (Finder.directory root).find files name selector =
        (Finder.directory root).find s.files name selector :=
      h.findInstalled (hroots root (List.mem_cons_self ..)) name selector
    have hrest := ih fun r hr ↦ hroots r (List.mem_cons_of_mem _ hr)
    simp only [List.map_cons, Finder.findFirst, hfind, hrest]

/-- Resolving a reference depends on nothing but the files of packages below the roots. -/
theorem resolve_withFiles {observer : Option (Observer μ)}
    (hblind : ∀ observe, observer = some observe → observe.Blind)
    (hfinders : s.finders = roots.map .directory) (hs : s.Agrees roots files) (reference : String)
    (origin : Option ModuleId) :
    (s.withFiles files).resolve observer reference origin =
      ((s.resolve observer reference origin).1,
        (s.resolve observer reference origin).2.withFiles files) := by
  have hfind (name : String) (selector : Selector) :
      Finder.findFirst files name selector s.finders =
        Finder.findFirst s.files name selector s.finders := by
    have hfirst := hs.findFirst name selector fun _ hroot ↦ hroot
    rwa [← hfinders] at hfirst
  exact resolve_reframe (f := id) (g := fun _ ↦ files) rfl hfind
    (fun observe hobserver ↦ hblind observe hobserver s files origin) reference

def Located (roots : List String) (s : Session μ) : Prop :=
  ∀ name p, s.package? name = some p → ∃ root ∈ roots, ∃ n : PackageName, n.IsPlain ∧
    Manifest.load s.files (n.manifestPath root) = .ok p.manifest

theorem located_start (config : Config) (files : FileTree) (finders : List Finder) (memory : μ) :
    Located roots (start config files finders memory) :=
  fun _ _ h ↦ by cases h

theorem Loads.located (h : Loads s t) (hfinders : s.finders = roots.map .directory)
    (hs : s.Located roots) : t.Located roots := by
  intro name q hq
  rw [h.files]
  rcases h.registers name q hq with ⟨p, hp, hgrows⟩ | ⟨-, name, selector, hfirst⟩
  · rw [hgrows.manifest_eq]
    exact hs name p hp
  · obtain ⟨finder, hfinder, hfind⟩ := Finder.find_of_findFirst hfirst
    rw [hfinders] at hfinder
    obtain ⟨root, hroot, rfl⟩ := List.mem_map.1 hfinder
    obtain ⟨n, -, hparse, hload, -⟩ := Finder.of_findInstalled hfind
    exact ⟨root, hroot, n, PackageName.isPlain_of_parse hparse, hload⟩

theorem Located.directory (hs : s.Located roots) {name directory : String} {p : Package}
    (hp : s.package? name = some p) (hdirectory : p.manifest.directory = some directory) :
    ∃ root ∈ roots, ∃ n : PackageName, n.IsPlain ∧
      directory = n.directory (FilePath.join s.files.workingDirectory root) := by
  obtain ⟨root, hroot, n, hn, hload⟩ := hs name p hp
  rw [Manifest.directory_of_load hload] at hdirectory
  cases hdirectory
  exact ⟨root, hroot, n, hn, n.containingDirectory_manifest hn s.files root⟩

/-- All files that a session looks for lie below a root, by their names. -/
theorem Contained.inside (hs : s.Located roots) {path : String} (h : s.Contained roots path) :
    ∃ root ∈ roots, FilePath.Inside root path ∨
      FilePath.Inside (FilePath.join s.files.workingDirectory root) path := by
  cases h with
  | @manifest root n hroot hn =>
    exact ⟨root, hroot, .inl <| hn.inside
      ⟨[Manifest.fileName], by simp, by simpa using PackageName.isStep_fileName, rfl⟩⟩
  | module registered located hne hsteps =>
    obtain ⟨root, hroot, n, hn, rfl⟩ := hs.directory registered located
    have hending : '/' ∉ ".json".toList := by decide
    exact ⟨root, hroot, .inr (hn.inside (FilePath.inside_append hne hsteps (by decide) hending))⟩

end Session

end Lading
