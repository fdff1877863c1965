import Lading.Files.ModulePath
import Lading.Proofs.Text.Parts

namespace Lading

namespace ModulePath

def IsStep (segment : List Char) : Prop := isOrdinary segment ∧ '/' ∉ segment

theorem isStep_iff {segment : List Char} :
    IsStep segment ↔
      segment ≠ [] ∧ segment ≠ ['.'] ∧ segment ≠ ['.', '.'] ∧ '/' ∉ segment := by
  simp [IsStep, isOrdinary, and_assoc]

/-- A name that a module may have: segments that name something, with slashes between them. -/
def IsName (name : String) : Prop := ∀ segment ∈ segments name.toList, IsStep segment

theorem descend_isStep {segments place result : List (List Char)}
    (h : descend place segments = some result) (hp : ∀ step ∈ place, IsStep step)
    (hs : ∀ segment ∈ segments, '/' ∉ segment) : ∀ step ∈ result, IsStep step := by
  induction segments generalizing place with
  | nil =>
    cases h
    exact hp
  | cons segment rest ih =>
    have hrest : ∀ segment ∈ rest, '/' ∉ segment := fun s hm ↦ hs s (List.mem_cons_of_mem _ hm)
    simp only [descend] at h
    split at h
    · exact ih h hp hrest
    · rename_i hdot
      split at h
      · cases place with
        | nil => cases h
        | cons last place => exact ih h (fun s hm ↦ hp s (List.mem_cons_of_mem _ hm)) hrest
      · rename_i hup
        refine ih h (fun s hm ↦ ?_) hrest
        rcases List.mem_cons.1 hm with rfl | hm
        · rw [not_or] at hdot
          exact isStep_iff.2 ⟨hdot.1, hdot.2, hup, hs s (List.mem_cons_self ..)⟩
        · exact hp s hm

theorem segments_joinWith {steps : List (List Char)} (hs : ∀ step ∈ steps, IsStep step)
    (hne : steps ≠ []) : segments (Text.joinWith '/' steps) = steps :=
  List.splitOn_intercalate '/' (fun step hm ↦ (hs step hm).2) hne

theorem descend_of_isStep {steps : List (List Char)} (place : List (List Char))
    (h : ∀ step ∈ steps, IsStep step) : descend place steps = some (steps.reverse ++ place) := by
  induction steps generalizing place with
  | nil => rfl
  | cons step steps ih =>
    obtain ⟨hnil, hdot, hup, -⟩ := isStep_iff.1 (h step List.mem_cons_self)
    simp only [descend, hnil, hdot, hup, or_self, if_false]
    rw [ih (step :: place) fun step hstep ↦ h step (List.mem_cons_of_mem _ hstep)]
    simp

theorem normalize_of_isName {name : String} (h : IsName name) : normalize name = some name := by
  rw [normalize, resolve, descend_of_isStep [] h]
  simp [segments, Text.joinWith, List.intercalate_splitOn]

theorem exists_steps_of_normalize {path name : String} (h : normalize path = some name) :
    ∃ steps, descend [] (segments path.toList) = some steps.reverse ∧
      (∀ step ∈ steps, IsStep step) ∧ name = String.ofList (Text.joinWith '/' steps) := by
  simp only [normalize, resolve, Option.map_map, Option.map_eq_some_iff] at h
  obtain ⟨place, hplace, rfl⟩ := h
  have hsteps := descend_isStep hplace (by simp)
    fun segment hm ↦ Text.mark_not_mem_splitOn '/' hm
  refine ⟨place.reverse, by rw [hplace, List.reverse_reverse], ?_, rfl⟩
  exact fun step hm ↦ hsteps step (List.mem_reverse.1 hm)

theorem isName_of_normalize {path name : String} (h : normalize path = some name)
    (hne : name ≠ "") : IsName name := by
  obtain ⟨steps, -, hsteps, rfl⟩ := exists_steps_of_normalize h
  have hnil : steps ≠ [] := by
    rintro rfl
    exact hne rfl
  rw [IsName, String.toList_ofList, segments_joinWith hsteps hnil]
  exact hsteps

theorem IsStep.append {step more : List Char} (hs : IsStep step) (hlong : 2 ≤ more.length)
    (hm : '/' ∉ more) : IsStep (step ++ more) := by
  obtain ⟨hnil, -, -, hslash⟩ := isStep_iff.1 hs
  have hlength : 3 ≤ (step ++ more).length := by
    have hpositive := List.length_pos_iff.2 hnil
    rw [List.length_append]
    omega
  -- Each of the dot segments is shorter.
  have hne {segment : List Char} (hshort : segment.length ≤ 2) : step ++ more ≠ segment := by
    rintro rfl
    omega
  exact isStep_iff.2 ⟨hne (by simp), hne (by simp), hne (by simp), by simp [hslash, hm]⟩

theorem eq_of_segments {name name' : String}
    (h : segments name.toList = segments name'.toList) : name = name' := by
  have hjoin := congrArg (List.intercalate ['/']) h
  rw [segments, segments, List.intercalate_splitOn, List.intercalate_splitOn] at hjoin
  exact String.toList_inj.1 hjoin

end ModulePath

end Lading
