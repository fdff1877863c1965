import Lading.Session.Finder
import Lading.Proofs.Results
import Lading.Proofs.Selector.Highest

namespace Lading

structure Manifest.Declares (manifest : Manifest) (name : String) (version : Version) : Prop where
  name : ∃ n, manifest.name = .ok n ∧ n.fullName = name
  version : manifest.version = .ok version

theorem Manifest.Declares.unique {manifest : Manifest} {name name' : String}
    {version version' : Version} (h : manifest.Declares name version)
    (h' : manifest.Declares name' version') : name = name' ∧ version = version' := by
  obtain ⟨⟨n, hname, rfl⟩, hversion⟩ := h
  obtain ⟨⟨n', hname', rfl⟩, hversion'⟩ := h'
  rw [hname] at hname'
  rw [hversion] at hversion'
  cases hname'
  cases hversion'
  exact ⟨rfl, rfl⟩

namespace Shelf

/-- Shelves that manifests were put on one after the other. -/
inductive Stocked : Shelf → Prop
  | empty : Stocked .empty
  | add {shelf shelf' : Shelf} {manifest : Manifest} (h : Stocked shelf)
      (hadd : shelf.add manifest = .ok shelf') : Stocked shelf'

def ofManifests (manifests : List Manifest) : Shelf :=
  manifests.foldl (fun shelf manifest ↦ (shelf.add manifest).toOption.getD shelf) .empty

section Stock

variable {shelf shelf' : Shelf} {manifest : Manifest} {entry : ShelfEntry}
  {manifests : List Manifest}

theorem add_declared (shelf : Shelf) {name : String} {version : Version}
    (h : manifest.Declares name version) :
    shelf.add manifest = .ok ⟨shelf.entries ++ [⟨name, version, manifest⟩]⟩ := by
  obtain ⟨⟨n, hname, rfl⟩, hversion⟩ := h
  simp only [add, hname, hversion, ok_bind]
  rfl

theorem declares_of_add (h : shelf.add manifest = .ok shelf') :
    ∃ name version, manifest.Declares name version ∧
      shelf'.entries = shelf.entries ++ [⟨name, version, manifest⟩] := by
  obtain ⟨name, hname, h⟩ := ok_of_bind h
  obtain ⟨version, hversion, h⟩ := ok_of_bind h
  cases h
  exact ⟨name.fullName, version, ⟨⟨name, hname, rfl⟩, hversion⟩, rfl⟩

theorem ofManifests_concat (manifests : List Manifest) (manifest : Manifest) :
    ofManifests (manifests ++ [manifest]) =
      ((ofManifests manifests).add manifest).toOption.getD (ofManifests manifests) := by
  rw [ofManifests, List.foldl_append]
  rfl

theorem stocked_ofManifests (manifests : List Manifest) : (ofManifests manifests).Stocked := by
  induction manifests using List.reverseRecOn with
  | nil => exact .empty
  | append_singleton manifests manifest ih =>
    rw [ofManifests_concat]
    cases hadd : (ofManifests manifests).add manifest with
    | error error => exact ih
    | ok shelf => exact ih.add hadd

theorem Stocked.version (h : shelf.Stocked) :
    ∀ entry ∈ shelf.entries, entry.manifest.version = .ok entry.version := by
  induction h with
  | empty => simp [Shelf.empty]
  | add _ hadd ih =>
    obtain ⟨name, version, hdeclares, hentries⟩ := declares_of_add hadd
    rw [hentries]
    intro entry hentry
    rcases List.mem_append.1 hentry with hentry | hentry
    · exact ih entry hentry
    · cases List.mem_singleton.1 hentry
      exact hdeclares.version

theorem mem_ofManifests : entry ∈ (ofManifests manifests).entries ↔
    entry.manifest ∈ manifests ∧ entry.manifest.Declares entry.name entry.version := by
  induction manifests using List.reverseRecOn with
  | nil => simp [ofManifests, Shelf.empty]
  | append_singleton manifests manifest ih =>
    rw [ofManifests_concat, List.mem_append, List.mem_singleton]
    cases hadd : (ofManifests manifests).add manifest with
    | error error =>
      change entry ∈ (ofManifests manifests).entries ↔ _
      rw [ih, or_and_right, or_iff_left]
      rintro ⟨rfl, hdeclares⟩
      rw [add_declared _ hdeclares] at hadd
      cases hadd
    | ok shelf =>
      obtain ⟨name, version, hdeclares, hentries⟩ := declares_of_add hadd
      change entry ∈ shelf.entries ↔ _
      rw [hentries, List.mem_append, List.mem_singleton, ih, or_and_right]
      refine or_congr_right ⟨?_, ?_⟩
      · rintro rfl
        exact ⟨rfl, hdeclares⟩
      · rintro ⟨rfl, hentry⟩
        obtain ⟨rfl, rfl⟩ := hdeclares.unique hentry
        rfl

end Stock

section Find

variable {shelf : Shelf} {name : String} {selector : Selector} {manifest : Manifest}

def versions (shelf : Shelf) (name : String) : List Version :=
  (shelf.entries.filter (·.name == name)).map (·.version)

theorem mem_versions {version : Version} : version ∈ shelf.versions name ↔
    ∃ entry ∈ shelf.entries, entry.name = name ∧ entry.version = version := by
  simp [versions, and_assoc]

theorem find?_eq_none_iff : shelf.find? name selector = none ↔
    ∀ version ∈ shelf.versions name, selector.accepts version = false := by
  rw [← Selector.best?_eq_none_iff]
  unfold find? versions
  dsimp only
  split
  · rename_i hbest
    simp [hbest]
  · rename_i best hbest
    obtain ⟨entry, hentry, hversion⟩ := List.mem_map.1 (Selector.best?_eq_some_iff.1 hbest).mem
    simp only [hbest, reduceCtorEq, iff_false, Option.map_eq_none_iff, List.find?_eq_none]
    intro hnone
    exact hnone entry hentry (by simp [hversion])

theorem exists_of_find? (h : shelf.find? name selector = some manifest) :
    ∃ entry ∈ shelf.entries, entry.manifest = manifest ∧ entry.name = name ∧
      selector.IsBest (shelf.versions name) entry.version := by
  unfold find? at h
  dsimp only at h
  split at h
  · cases h
  · rename_i best hbest
    obtain ⟨entry, hfind, rfl⟩ := Option.map_eq_some_iff.1 h
    have hversion : entry.version = best := by simpa using List.find?_some hfind
    obtain ⟨hmem, hname⟩ := List.mem_filter.1 (List.mem_of_find?_eq_some hfind)
    exact ⟨entry, hmem, rfl, by simpa using hname, hversion ▸ Selector.best?_eq_some_iff.1 hbest⟩

theorem Stocked.accepts (h : shelf.Stocked) (hfind : shelf.find? name selector = some manifest) :
    ∃ version, manifest.version = .ok version ∧ selector.accepts version := by
  obtain ⟨entry, hentry, rfl, -, hbest⟩ := exists_of_find? hfind
  exact ⟨entry.version, h.version entry hentry, hbest.accepted⟩

theorem find_memory_eq_ok_iff {files : FileTree} :
    Finder.find files (.memory shelf) name selector = .ok manifest ↔
      shelf.find? name selector = some manifest := by
  cases hfind : shelf.find? name selector <;> simp [Finder.find, hfind]

end Find

structure PicksHighest (manifests : List Manifest) (files : FileTree) (name : String)
    (selector : Selector) : Prop where
  found_iff :
    (∃ found, Finder.find files (.memory (ofManifests manifests)) name selector = .ok found) ↔
      ∃ manifest ∈ manifests, ∃ version, manifest.Declares name version ∧ selector.accepts version
  missed :
    (¬∃ found, Finder.find files (.memory (ofManifests manifests)) name selector = .ok found) →
      Finder.find files (.memory (ofManifests manifests)) name selector =
        .error (.packageNotFound name selector)
  highest : ∀ found,
    Finder.find files (.memory (ofManifests manifests)) name selector = .ok found →
      found ∈ manifests ∧ ∃ version, found.Declares name version ∧ selector.accepts version ∧
        ∀ other ∈ manifests, ∀ version', other.Declares name version' →
          selector.accepts version' → version'.precedence version ≠ .gt
  /-- In another order the same manifests may give another one, but none that is higher or lower. -/
  unordered : ∀ manifests', manifests.Perm manifests' → ∀ found,
    Finder.find files (.memory (ofManifests manifests)) name selector = .ok found →
      ∃ found' version version',
        Finder.find files (.memory (ofManifests manifests')) name selector = .ok found' ∧
          found.Declares name version ∧ found'.Declares name version' ∧
            version.precedence version' = .eq

section Highest

variable {manifests : List Manifest} {name : String} {selector : Selector} {manifest : Manifest}

theorem mem_versions_ofManifests {version : Version} :
    version ∈ (ofManifests manifests).versions name ↔
      ∃ manifest ∈ manifests, manifest.Declares name version := by
  rw [mem_versions]
  constructor
  · rintro ⟨entry, hentry, rfl, rfl⟩
    exact ⟨entry.manifest, mem_ofManifests.1 hentry⟩
  · rintro ⟨manifest, hmem, hdeclares⟩
    exact ⟨⟨name, version, manifest⟩, mem_ofManifests.2 ⟨hmem, hdeclares⟩, rfl, rfl⟩

theorem isSome_find?_iff : (∃ found, (ofManifests manifests).find? name selector = some found) ↔
    ∃ manifest ∈ manifests, ∃ version, manifest.Declares name version ∧
      selector.accepts version := by
  rw [← Option.ne_none_iff_exists', Ne, find?_eq_none_iff]
  simp only [mem_versions_ofManifests, not_forall, Bool.not_eq_false]
  constructor
  · rintro ⟨version, ⟨manifest, hmem, hdeclares⟩, haccepts⟩
    exact ⟨manifest, hmem, version, hdeclares, haccepts⟩
  · rintro ⟨manifest, hmem, version, hdeclares, haccepts⟩
    exact ⟨version, ⟨manifest, hmem, hdeclares⟩, haccepts⟩

theorem highest_of_find? (h : (ofManifests manifests).find? name selector = some manifest) :
    manifest ∈ manifests ∧ ∃ version, manifest.Declares name version ∧ selector.accepts version ∧
      ∀ other ∈ manifests, ∀ version', other.Declares name version' →
        selector.accepts version' → version'.precedence version ≠ .gt := by
  obtain ⟨entry, hentry, rfl, rfl, hbest⟩ := exists_of_find? h
  obtain ⟨hmem, hdeclares⟩ := mem_ofManifests.1 hentry
  refine ⟨hmem, entry.version, hdeclares, hbest.accepted, ?_⟩
  intro other hother version' hdeclares' haccepts
  exact hbest.ne_gt (mem_versions_ofManifests.2 ⟨other, hother, hdeclares'⟩) haccepts

end Highest

/-- Among manifests, the finder gives one of the highest version that the selector takes. Among
versions, the best is the last of these. -/
theorem find_highest (manifests : List Manifest) (files : FileTree) (name : String)
    (selector : Selector) : PicksHighest manifests files name selector ∧
      ∀ candidates, (selector.best? candidates = none ↔
          ∀ version ∈ candidates, selector.accepts version = false) ∧
        ∀ version, selector.best? candidates = some version ↔
          selector.IsBest candidates version := by
  refine ⟨?_, fun _ ↦ ⟨Selector.best?_eq_none_iff, fun _ ↦ Selector.best?_eq_some_iff⟩⟩
  constructor
  case found_iff =>
    simp only [find_memory_eq_ok_iff]
    exact isSome_find?_iff
  case missed =>
    intro hnone
    cases hfind : (ofManifests manifests).find? name selector with
    | none => simp [Finder.find, hfind]
    | some found => exact absurd ⟨found, find_memory_eq_ok_iff.2 hfind⟩ hnone
  case highest =>
    intro found hfind
    exact highest_of_find? (find_memory_eq_ok_iff.1 hfind)
  case unordered =>
    intro manifests' hperm found hfind
    obtain ⟨hmem, version, hdeclares, haccepts, hhighest⟩ :=
      highest_of_find? (find_memory_eq_ok_iff.1 hfind)
    obtain ⟨found', hfind'⟩ :=
      isSome_find?_iff.2 ⟨found, hperm.subset hmem, version, hdeclares, haccepts⟩
    obtain ⟨hmem', version', hdeclares', haccepts', hhighest'⟩ := highest_of_find? hfind'
    refine ⟨found', version, version', find_memory_eq_ok_iff.2 hfind', hdeclares, hdeclares', ?_⟩
    -- Neither of the two is higher, since each is among those that the other is chosen from.
    have hle := hhighest' found (hperm.subset hmem) version hdeclares haccepts
    have hge := hhighest found' (hperm.symm.subset hmem') version' hdeclares' haccepts'
    cases horder : version.precedence version' with
    | eq => rfl
    | lt => exact absurd (Std.OrientedCmp.gt_of_lt horder) hge
    | gt => exact absurd horder hle

def labelled (name version : String) : Manifest :=
  ⟨[("name", .string name), ("version", .string version)], none⟩

def builds : List Manifest :=
  [labelled "q" "1.2.0+b1", ⟨[("version", .string "1.9.0")], none⟩, labelled "q" "1.2.0+b2",
    labelled "q" "1.3.0-rc.1", labelled "r" "1.4.0", labelled "q" "2.0.0"]

def findBuild (manifests : List Manifest) : Except SessionError Manifest :=
  Finder.find ⟨"/", []⟩ (.memory (ofManifests manifests)) "q" ⟨[[⟨.caret, .release 1 0 0⟩]]⟩

theorem findBuild_of_find? {manifests : List Manifest} {version : Version}
    (h : ((ofManifests manifests).find? "q" ⟨[[⟨.caret, .release 1 0 0⟩]]⟩).bind
      (·.version.toOption) = some version) :
    ∃ found, findBuild manifests = .ok found ∧ found.version = .ok version := by
  obtain ⟨found, hfind, hversion⟩ := Option.bind_eq_some_iff.1 h
  refine ⟨found, find_memory_eq_ok_iff.2 hfind, ?_⟩
  cases hresult : found.version with
  | error error => simp [hresult, Except.toOption] at hversion
  | ok version' =>
    rw [hresult] at hversion
    cases hversion
    rfl

theorem find_highest_builds :
    (∃ found, findBuild builds = .ok found ∧ found.version = .ok ⟨1, 2, 0, [], ["b2"]⟩) ∧
      (∃ found, findBuild builds.reverse = .ok found ∧
        found.version = .ok ⟨1, 2, 0, [], ["b1"]⟩) ∧
      (∀ other ∈ builds, ∀ version, other.Declares "q" version →
        Selector.accepts ⟨[[⟨.caret, .release 1 0 0⟩]]⟩ version →
          version.precedence ⟨1, 2, 0, [], ["b2"]⟩ ≠ .gt) ∧
      Version.precedence ⟨1, 2, 0, [], ["b2"]⟩ ⟨1, 2, 0, [], ["b1"]⟩ = .eq := by
  have hsecond : ∃ found, findBuild builds = .ok found ∧
      found.version = .ok ⟨1, 2, 0, [], ["b2"]⟩ := findBuild_of_find? (by decide +kernel)
  have hfirst : ∃ found, findBuild builds.reverse = .ok found ∧
      found.version = .ok ⟨1, 2, 0, [], ["b1"]⟩ := findBuild_of_find? (by decide +kernel)
  refine ⟨hsecond, hfirst, ?_⟩
  obtain ⟨second, hsecond, hversion⟩ := hsecond
  obtain ⟨first, hfirst, hversion'⟩ := hfirst
  have hpicks := (find_highest builds ⟨"/", []⟩ "q" ⟨[[⟨.caret, .release 1 0 0⟩]]⟩).1
  constructor
  · obtain ⟨-, version, hdeclares, -, hhighest⟩ := hpicks.highest _ hsecond
    rw [hdeclares.version] at hversion
    cases hversion
    exact hhighest
  · obtain ⟨found, version, version', hfound, hdeclares, hdeclares', horder⟩ :=
      hpicks.unordered _ builds.reverse_perm.symm _ hsecond
    change findBuild builds.reverse = .ok found at hfound
    rw [hfirst] at hfound
    cases hfound
    rw [hdeclares.version] at hversion
    rw [hdeclares'.version] at hversion'
    cases hversion
    cases hversion'
    exact horder

end Shelf

end Lading
