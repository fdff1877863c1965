import Lading.Proofs.Text.Runs

namespace Lading.Text

structure IsTrimmed (s : List Char) : Prop where
  head : ∀ c ∈ s.head?, isBlank c = false
  last : ∀ c ∈ s.getLast?, isBlank c = false

theorem isTrimmed_of_forall {s : List Char} (h : ∀ c ∈ s, isBlank c = false) : IsTrimmed s where
  head c hc := h c (List.mem_of_mem_head? hc)
  last c hc := h c (List.mem_of_mem_getLast? hc)

theorem trimEnd_append {s blanks : List Char} (hs : ∀ c ∈ s.getLast?, isBlank c = false)
    (hblanks : IsBlanks blanks) : trimEnd (s ++ blanks) = s := by
  rw [trimEnd, List.reverse_append, dropWhile_run, List.reverse_reverse]
  · exact fun c hc ↦ hblanks c (List.mem_reverse.1 hc)
  · rwa [List.head?_reverse]

theorem trimEnd_eq_self {s : List Char} (hs : ∀ c ∈ s.getLast?, isBlank c = false) :
    trimEnd s = s := by
  simpa using trimEnd_append hs isBlanks_nil

theorem trimEnd_starts (s : List Char) : trimEnd s <+: s := List.rdropWhile_prefix isBlank s

/-- Trimming takes away at the end of a text what it takes away at the end of its last part. -/
theorem trimEnd_append_right {s t : List Char} (ht : trimEnd t ≠ []) :
    trimEnd (s ++ t) = s ++ trimEnd t := by
  have hne : t.reverse.dropWhile isBlank ≠ [] := by simpa [trimEnd] using ht
  have hempty : (t.reverse.dropWhile isBlank).isEmpty = false := by simpa using hne
  rw [trimEnd, List.reverse_append, List.dropWhile_append, hempty]
  simp [trimEnd]

theorem trimEnd_append_of_last {s t : List Char} (hs : ∀ c ∈ s.getLast?, isBlank c = false) :
    trimEnd (s ++ t) = s ++ trimEnd t := by
  by_cases ht : trimEnd t = []
  · have hblanks : IsBlanks t := by
      intro c hc
      have hdrop : t.reverse.dropWhile isBlank = [] := List.reverse_eq_nil_iff.1 ht
      exact List.dropWhile_eq_nil_iff.1 hdrop c (List.mem_reverse.2 hc)
    rw [trimEnd_append hs hblanks, ht, List.append_nil]
  · exact trimEnd_append_right ht

theorem last_trimEnd (s : List Char) : ∀ c ∈ (trimEnd s).getLast?, isBlank c = false := by
  rw [trimEnd, List.getLast?_reverse]
  exact head_dropWhile isBlank _

section Head

variable {s : List Char} (hs : ∀ c ∈ s.head?, isBlank c = false)
include hs

theorem trimEnd_ne_nil (hne : s ≠ []) : trimEnd s ≠ [] := by
  cases s with
  | nil => exact absurd rfl hne
  | cons c s =>
    have hc : ∀ d ∈ [c].getLast?, isBlank d = false := by
      rintro d ⟨⟩
      exact hs c rfl
    have htrim : trimEnd ([c] ++ s) = [c] ++ trimEnd s := trimEnd_append_of_last hc
    rw [← List.singleton_append, htrim]
    simp

theorem head_trimEnd : ∀ c ∈ (trimEnd s).head?, isBlank c = false := by
  intro c hc
  obtain ⟨blanks, hblanks⟩ := trimEnd_starts s
  refine hs c ?_
  rw [← hblanks, List.head?_append, Option.mem_def.1 hc]
  rfl

theorem trim_eq_trimEnd : trim s = trimEnd s := by
  have hstart : trimStart ([] ++ s) = s := trimStart_append isBlanks_nil hs
  rw [List.nil_append] at hstart
  rw [trim, hstart]

end Head

theorem isTrimmed_trim (s : List Char) : IsTrimmed (trim s) := by
  refine ⟨?_, last_trimEnd _⟩
  intro c hc
  obtain ⟨blanks, -, hs, -⟩ := trimStart_eq s
  have hstart : c ∈ (trimStart s).head? := by
    rw [hs, List.head?_append, hc]
    rfl
  exact head_dropWhile isBlank s c hstart

theorem exists_blanks_trim (s : List Char) :
    ∃ front back, IsBlanks front ∧ IsBlanks back ∧ s = front ++ trim s ++ back := by
  obtain ⟨back, hback, hstart, -⟩ := trimStart_eq s
  refine ⟨s.takeWhile isBlank, back, fun c hc ↦ List.mem_takeWhile_imp hc, hback, ?_⟩
  rw [List.append_assoc, ← hstart]
  exact List.takeWhile_append_dropWhile.symm

theorem trim_trimEnd (s : List Char) : trim (trimEnd s) = trim s := by
  have hs : trimEnd s ++ (s.reverse.takeWhile isBlank).reverse = s := by
    rw [trimEnd, ← List.reverse_append, List.takeWhile_append_dropWhile, List.reverse_reverse]
  have hblanks : IsBlanks (s.reverse.takeWhile isBlank).reverse :=
    fun c hc ↦ List.mem_takeWhile_imp (List.mem_reverse.1 hc)
  rw [← trim_append_blanks hblanks (trimEnd s), hs]

theorem trimStart_append_left {front : List Char} (h : IsBlanks front) (s : List Char) :
    trimStart (front ++ s) = trimStart s :=
  List.dropWhile_append_of_pos h

theorem mem_of_mem_trim {s : List Char} {c : Char} (h : c ∈ trim s) : c ∈ s := by
  obtain ⟨front, back, -, -, hs⟩ := exists_blanks_trim s
  rw [hs]
  simp [h]

namespace IsTrimmed

variable {s t middle : List Char}

theorem trim_append {front back : List Char} (h : IsTrimmed s) (hfront : IsBlanks front)
    (hback : IsBlanks back) : trim (front ++ s ++ back) = s := by
  rw [trim_append_blanks hback, trim, trimStart_append hfront h.head, trimEnd_eq_self h.last]

theorem trim_eq (h : IsTrimmed s) : trim s = s := by
  simpa using h.trim_append isBlanks_nil isBlanks_nil

theorem trimStart_of_suffix (hs : IsTrimmed s) (ht : t <:+ s) : IsTrimmed (trimStart t) where
  head := head_dropWhile isBlank t
  last := by
    obtain ⟨front, rfl⟩ : trimStart t <:+ s := (List.dropWhile_suffix isBlank).trans ht
    intro c hc
    refine hs.last c ?_
    rw [List.getLast?_append, Option.mem_def.1 hc]
    rfl

theorem eq_nil_of_blanks {blanks : List Char} (h : IsTrimmed (s ++ blanks))
    (hblanks : IsBlanks blanks) : blanks = [] := by
  rw [← List.getLast?_eq_none_iff, Option.eq_none_iff_forall_not_mem]
  intro c hc
  have hfalse := h.last c (by rw [List.getLast?_append, Option.mem_def.1 hc]; rfl)
  rw [hblanks c (List.mem_of_mem_getLast? hc)] at hfalse
  cases hfalse

theorem append (hs : IsTrimmed s) (ht : IsTrimmed t) (hne : s ≠ []) (hne' : t ≠ []) :
    IsTrimmed (s ++ middle ++ t) where
  head := by
    rw [List.append_assoc, List.head?_append_of_ne_nil _ hne]
    exact hs.head
  last := by
    rw [List.getLast?_append_of_ne_nil _ hne']
    exact ht.last

end IsTrimmed

theorem trim_eq_nil_iff {s : List Char} : trim s = [] ↔ IsBlanks s := by
  constructor
  · intro h
    obtain ⟨front, back, hfront, hback, hs⟩ := exists_blanks_trim s
    rw [hs, h, List.append_nil]
    exact hfront.append hback
  · intro h
    have hnil : IsTrimmed [] := ⟨by simp, by simp⟩
    simpa using hnil.trim_append h isBlanks_nil

end Lading.Text
