import Lading.Files.Tree
import Lading.Proofs.Files.ModulePath

namespace Lading

namespace FilePath

theorem isAbsolute_append {path : String} (hne : path ≠ "") (more : String) :
    isAbsolute (path ++ more) = isAbsolute path := by
  have hlist : path.toList ≠ [] := by simpa using hne
  obtain ⟨c, rest, hc⟩ := List.exists_cons_of_ne_nil hlist
  simp [isAbsolute, hc]

theorem isAbsolute_of_isStep {step : List Char} (hs : ModulePath.IsStep step) :
    isAbsolute (String.ofList step) = false := by
  cases step with
  | nil => rfl
  | cons c step =>
    have hc : c ≠ '/' := fun hc ↦ hs.2 (by simp [hc])
    simp [isAbsolute, hc]

theorem join_append {step : List Char} (hs : ModulePath.IsStep step) (more : List Char)
    (directory : String) :
    join directory (String.ofList step) ++ String.ofList more =
      join directory (String.ofList (step ++ more)) := by
  have hne : String.ofList step ≠ "" := by simpa using (ModulePath.isStep_iff.1 hs).1
  have habsolute : isAbsolute (String.ofList (step ++ more)) = false := by
    rw [String.ofList_append, isAbsolute_append hne, isAbsolute_of_isStep hs]
  simp only [join, isAbsolute_of_isStep hs, habsolute, Bool.false_eq_true, if_false]
  split <;> simp [String.append_assoc]

end FilePath

namespace FileTree

def ofTexts (texts : List (String × String)) : FileTree :=
  ⟨"/", texts.map fun (path, text) ↦ (place path, .file text.toUTF8.toList)⟩

def follow (place : List (List Char)) (component : List Char) : List (List Char) :=
  if component = [] ∨ component = ['.'] then place
  else if component = ['.', '.'] then place.dropLast
  else place ++ [component]

/-- Where a path leads if directories are on its way. -/
def landing (tree : FileTree) (path : String) : List (List Char) :=
  (components path).foldl follow
    (if FilePath.isAbsolute path then [] else place tree.workingDirectory)

variable {tree : FileTree}

theorem at?_of_walk {start path : List (List Char)} {node : FileNode}
    (h : tree.walk start path = .ok node) : tree.at? (path.foldl follow start) = some node := by
  induction path generalizing start with
  | nil =>
    simp only [walk] at h
    split at h
    · cases h
      assumption
    · cases h
  | cons c path ih =>
    simp only [walk] at h
    rw [List.foldl_cons]
    split at h
    · split at h
      · rename_i hdot
        rw [follow, if_pos hdot]
        exact ih h
      · rename_i hdot
        split at h
        · rename_i hup
          rw [follow, if_neg hdot, if_pos hup]
          exact ih h
        · rename_i hup
          split at h
          · cases h
          · rw [follow, if_neg hdot, if_neg hup]
            exact ih h
    · cases h
    · cases h

theorem at?_of_find {path : String} {node : FileNode} (h : tree.find path = .ok node) :
    tree.at? (tree.landing path) = some node := by
  unfold find at h
  split at h
  · cases h
  · split at h
    · cases h
    · split at h
      · cases h
      · unfold landing
        split at h
        · rename_i habsolute
          rw [if_pos habsolute]
          exact at?_of_walk h
        · rename_i habsolute
          rw [if_neg habsolute]
          exact at?_of_walk h

theorem mem_of_at? {place : List (List Char)} {bytes : List UInt8}
    (h : tree.at? place = some (.file bytes)) : (place, .file bytes) ∈ tree.nodes := by
  unfold at? at h
  split at h
  · rename_i p node hfind
    cases h
    have hp := List.find?_some hfind
    rw [beq_iff_eq] at hp
    exact hp ▸ List.mem_of_find?_eq_some hfind
  · split at h <;> cases h

theorem mem_of_read {path text : String} (h : tree.read path = .ok text) :
    ∃ bytes, (tree.landing path, .file bytes) ∈ tree.nodes ∧ text = Text.decodeUtf8 bytes := by
  unfold read at h
  split at h
  · rename_i bytes hfind
    cases h
    exact ⟨bytes, mem_of_at? (at?_of_find hfind), rfl⟩
  · cases h
  · cases h

theorem follow_nil (place : List (List Char)) : follow place [] = place := by simp [follow]

theorem follow_isStep {step : List Char} (hs : ModulePath.IsStep step)
    (place : List (List Char)) : follow place step = place ++ [step] := by
  obtain ⟨hnil, hdot, hup, -⟩ := ModulePath.isStep_iff.1 hs
  simp [follow, hnil, hdot, hup]

theorem components_isStep {step : List Char} (hs : ModulePath.IsStep step) :
    components (String.ofList step) = [step] := by
  rw [components, String.toList_ofList]
  exact List.splitOn_eq_singleton hs.2

theorem landing_join {step : List Char} (hs : ModulePath.IsStep step) (directory : String) :
    tree.landing (FilePath.join directory (String.ofList step)) =
      tree.landing directory ++ [step] := by
  have habsolute := FilePath.isAbsolute_of_isStep hs
  unfold FilePath.join
  rw [if_neg (by simp [habsolute])]
  by_cases hempty : directory = ""
  · subst hempty
    have hnone : FilePath.isAbsolute "" = false := rfl
    have hcomponents : components "" = [[]] := by simp [components]
    simp [landing, habsolute, hnone, hcomponents, components_isStep hs, follow_isStep hs,
      follow_nil]
  · by_cases hslash : directory.toList.getLast? = some '/'
    · obtain ⟨front, hfront⟩ := List.getLast?_eq_some_iff.1 hslash
      have hdirectory : components directory = front.splitOn '/' ++ [[]] := by
        simp [components, hfront, List.splitOn_append_cons_self]
      have hpath : components (directory ++ String.ofList step) = front.splitOn '/' ++ [step] := by
        have htext : (directory ++ String.ofList step).toList = front ++ '/' :: step := by
          simp [hfront]
        rw [components, htext, List.splitOn_append_cons_self, List.splitOn_eq_singleton hs.2]
      rw [if_pos (.inr hslash), landing, landing, hpath, hdirectory,
        FilePath.isAbsolute_append hempty]
      simp [follow_isStep hs, follow_nil]
    · have hpath : components (directory ++ "/" ++ String.ofList step) =
          components directory ++ [step] := by
        have htext : (directory ++ "/" ++ String.ofList step).toList =
            directory.toList ++ '/' :: step := by simp
        rw [components, htext, List.splitOn_append_cons_self, List.splitOn_eq_singleton hs.2,
          components]
      rw [if_neg (by simp [hempty, hslash]), landing, landing, hpath, String.append_assoc,
        FilePath.isAbsolute_append hempty]
      simp [follow_isStep hs]

theorem landing_steps {steps : List (List Char)} (hs : ∀ step ∈ steps, ModulePath.IsStep step)
    (directory : String) :
    tree.landing ((steps.map String.ofList).foldl FilePath.join directory) =
      tree.landing directory ++ steps := by
  induction steps generalizing directory with
  | nil => simp
  | cons step steps ih =>
    rw [List.map_cons, List.foldl_cons, ih fun s hm ↦ hs s (List.mem_cons_of_mem _ hm),
      landing_join (hs step (List.mem_cons_self ..)), List.append_assoc, List.singleton_append]

def fileBelow (directory name : String) : String :=
  ((ModulePath.segments name.toList).map String.ofList).foldl FilePath.join directory ++ ".json"

theorem landing_fileBelow (tree : FileTree) {name : String} (hn : ModulePath.IsName name)
    (directory : String) :
    ∃ front last, ModulePath.segments name.toList = front ++ [last] ∧
      tree.landing (fileBelow directory name) =
        tree.landing directory ++ front ++ [last ++ ".json".toList] := by
  obtain ⟨front, last, hsegments⟩ :=
    List.eq_nil_or_concat (ModulePath.segments name.toList) |>.resolve_left
      (List.splitOn_ne_nil '/' name.toList)
  rw [List.concat_eq_append] at hsegments
  have hsteps : ∀ step ∈ front, ModulePath.IsStep step :=
    fun step hm ↦ hn step (by simp [hsegments, hm])
  have hlast : ModulePath.IsStep last := hn last (by simp [hsegments])
  have hjson : ModulePath.IsStep (last ++ ".json".toList) := hlast.append (by decide) (by decide)
  refine ⟨front, last, hsegments, ?_⟩
  rw [fileBelow, hsegments, List.map_append, List.foldl_append]
  simp only [List.map_cons, List.map_nil, List.foldl_cons, List.foldl_nil]
  rw [show ".json" = String.ofList ".json".toList from rfl, FilePath.join_append hlast,
    landing_join hjson, landing_steps hsteps]
  rfl

theorem eq_of_landing {directory name name' : String} (hn : ModulePath.IsName name)
    (hn' : ModulePath.IsName name')
    (h : tree.landing (fileBelow directory name) = tree.landing (fileBelow directory name')) :
    name = name' := by
  obtain ⟨front, last, hsegments, hl⟩ := landing_fileBelow tree hn directory
  obtain ⟨front', last', hsegments', hl'⟩ := landing_fileBelow tree hn' directory
  rw [hl, hl', List.append_assoc, List.append_assoc] at h
  obtain ⟨hfront, hlast⟩ := List.append_inj' (List.append_cancel_left h) rfl
  have hlast : last = last' := List.append_cancel_right (List.singleton_inj.1 hlast)
  exact ModulePath.eq_of_segments (by rw [hsegments, hsegments', hfront, hlast])

end FileTree

end Lading
