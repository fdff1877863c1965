import Lading.Session.Finder
import Lading.Proofs.Files.FilePath
import Lading.Proofs.Package.NameText

namespace Lading.PackageName

theorem isStep_of_isWord {word : List Char} (h : isWord word) : ModulePath.IsStep word := by
  have hdot (more : List Char) : word ≠ '.' :: more := by
    rintro rfl
    exact absurd (isNameStart_of_isWord h [] '.' rfl) (by decide)
  exact ModulePath.isStep_iff.2 ⟨ne_nil_of_isWord h, hdot [], hdot ['.'], notMem_of_isWord h rfl⟩

structure IsPlain (n : PackageName) : Prop where
  scope : ∀ scope, n.scope = some scope → ModulePath.IsStep scope.toList
  name : ModulePath.IsStep n.name.toList

theorem isPlain_of_parse {input : String} {n : PackageName} (h : parse input = .ok n) :
    n.IsPlain := by
  obtain ⟨hn, -⟩ := read_eq_ok_iff.1 (ok_of_mapError h)
  exact ⟨fun scope hscope ↦ isStep_of_isWord (hn.scope scope hscope), isStep_of_isWord hn.name⟩

def steps (n : PackageName) : List String :=
  match n.scope with
  | none => [n.name]
  | some scope => ["@" ++ scope, n.name]

theorem directory_eq (n : PackageName) (root : String) :
    n.directory root = FilePath.descend root n.steps := by
  unfold directory steps
  cases n.scope <;> rfl

theorem IsPlain.isStep {n : PackageName} (h : n.IsPlain) :
    ∀ step ∈ n.steps, ModulePath.IsStep step.toList := by
  intro step hstep
  unfold steps at hstep
  split at hstep
  · rw [List.mem_singleton.1 hstep]
    exact h.name
  · rename_i scope hscope
    rcases List.mem_cons.1 hstep with rfl | hstep
    · obtain ⟨hnil, -, -, hslash⟩ := ModulePath.isStep_iff.1 (h.scope scope hscope)
      refine ModulePath.isStep_iff.2 ⟨by simp, ?_, ?_, ?_⟩ <;> simp [hslash]
    · rw [List.mem_singleton.1 hstep]
      exact h.name

theorem IsPlain.inside {n : PackageName} (h : n.IsPlain) {root path : String}
    (hpath : FilePath.Inside (n.directory root) path) : FilePath.Inside root path := by
  rw [directory_eq] at hpath
  exact hpath.descend h.isStep

theorem steps_eq_append (n : PackageName) : ∃ front, n.steps = front ++ [n.name] := by
  unfold steps
  cases n.scope with
  | none => exact ⟨[], rfl⟩
  | some scope => exact ⟨[_], rfl⟩

theorem directory_join (n : PackageName) (hn : n.IsPlain) (base root : String) :
    n.directory (FilePath.join base root) = FilePath.join base (n.directory root) := by
  rw [directory_eq, directory_eq]
  exact FilePath.descend_join fun step hstep ↦ FilePath.isAbsolute_step (hn.isStep step hstep)

theorem isStep_fileName : ModulePath.IsStep Manifest.fileName.toList := by
  rw [ModulePath.isStep_iff]
  decide

/-- The directory of the manifest of a package, which is where the name leads from the root. -/
theorem containingDirectory_manifest {n : PackageName} (hn : n.IsPlain) (files : FileTree)
    (root : String) :
    files.containingDirectory (FilePath.join (n.directory root) Manifest.fileName) =
      n.directory (FilePath.join files.workingDirectory root) := by
  have hfile := isStep_fileName
  obtain ⟨front, hfront⟩ := n.steps_eq_append
  have hdirectory (base : String) :
      n.directory base = FilePath.join (FilePath.descend base front) n.name := by
    rw [directory_eq, hfront, FilePath.descend_append]
    rfl
  unfold FileTree.containingDirectory
  rw [← FilePath.join_join (FilePath.isAbsolute_step hfile), ← n.directory_join hn, hdirectory]
  simp only [FilePath.parent?_join hn.name hfile, Option.getD_some]

end Lading.PackageName
