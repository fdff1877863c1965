import Lading.Text.Blank
import Mathlib.Data.List.DropRight

namespace Lading.Text

def IsBlanks (s : List Char) : Prop := ∀ c ∈ s, isBlank c

instance (s : List Char) : Decidable (IsBlanks s) :=
  decidable_of_iff (s.all isBlank) List.all_eq_true

theorem eq_false_of_any {p : Char → Bool} {s : List Char} (h : s.any p = false) :
    ∀ c ∈ s, p c = false := by
  simpa using h

theorem isBlanks_nil : IsBlanks [] := by simp [IsBlanks]

theorem not_isBlank_of_isGraphic {c : Char} (h : isGraphic c) : isBlank c = false := by
  simp only [isGraphic, Bool.and_eq_true, decide_eq_true_eq, Char.le_def,
    UInt32.le_iff_toNat_le] at h
  have hlow : 33 ≤ c.toNat := h.1
  have hhigh : c.toNat ≤ 126 := h.2
  simp [isBlank]
  omega

theorem isGraphic_of_isAlphanum {c : Char} (h : c.isAlphanum) : isGraphic c := by
  change ((decide (65 ≤ c.val ∧ c.val ≤ 90) || decide (97 ≤ c.val) && decide (c.val ≤ 122)) ||
    decide (48 ≤ c.val) && decide (c.val ≤ 57)) = true at h
  simp only [Bool.or_eq_true, Bool.and_eq_true, decide_eq_true_eq, UInt32.le_iff_toNat_le] at h
  simp only [isGraphic, Bool.and_eq_true, decide_eq_true_eq, Char.le_def,
    UInt32.le_iff_toNat_le]
  change ((65 ≤ c.val.toNat ∧ c.val.toNat ≤ 90) ∨ (97 ≤ c.val.toNat ∧ c.val.toNat ≤ 122)) ∨
    (48 ≤ c.val.toNat ∧ c.val.toNat ≤ 57) at h
  change 33 ≤ c.val.toNat ∧ c.val.toNat ≤ 126
  omega

theorem not_isBlank_of_isAlphanum (c : Char) (h : c.isAlphanum) : isBlank c = false :=
  not_isBlank_of_isGraphic (isGraphic_of_isAlphanum h)

theorem isBlank_head_trimStart {s rest : List Char} {c : Char} (h : trimStart s = c :: rest) :
    isBlank c = false := by
  have hdrop : s.dropWhile isBlank = c :: rest := h
  have hc := List.dropWhile_get_zero_not isBlank s (by simp [hdrop])
  simpa [hdrop] using hc

theorem trimEnd_append_blanks {blanks : List Char} (h : ∀ c ∈ blanks, isBlank c) (s : List Char) :
    trimEnd (s ++ blanks) = trimEnd s := by
  rw [trimEnd, List.reverse_append, List.dropWhile_append_of_pos (by simpa using h), trimEnd]

theorem trim_append_blanks {blanks : List Char} (h : ∀ c ∈ blanks, isBlank c) (s : List Char) :
    trim (s ++ blanks) = trim s := by
  rw [trim, trimStart, List.dropWhile_append]
  split
  · rename_i hs
    have hnil : blanks.dropWhile isBlank = [] := List.dropWhile_eq_nil_iff.2 h
    rw [hnil, trim, trimStart, List.isEmpty_iff.1 hs]
  · exact trimEnd_append_blanks h _

theorem trim_trimStart (s : List Char) : trim (trimStart s) = trim s := by
  rw [trim, trim, trimStart, trimStart, List.dropWhile_idempotent]

/-- What is behind the blanks at the start of a text is the text without the blanks at its ends, and
blanks. -/
theorem trimStart_eq (s : List Char) : ∃ blanks, (∀ c ∈ blanks, isBlank c) ∧
    trimStart s = trim s ++ blanks ∧ (trim s = [] → blanks = []) := by
  refine ⟨((trimStart s).reverse.takeWhile isBlank).reverse, ?_, ?_, ?_⟩
  · intro c hc
    exact List.mem_takeWhile_imp (List.mem_reverse.1 hc)
  · rw [trim, trimEnd, ← List.reverse_append, List.takeWhile_append_dropWhile, List.reverse_reverse]
  · intro hs
    cases hstart : trimStart s with
    | nil => rfl
    | cons c rest =>
      -- The first character is no blank, so it is left when the others are taken away.
      rw [trim, trimEnd, hstart, List.reverse_eq_nil_iff, List.dropWhile_eq_nil_iff] at hs
      have hc := hs c (by simp)
      rw [isBlank_head_trimStart hstart] at hc
      cases hc

theorem trim_trim (s : List Char) : trim (trim s) = trim s := by
  obtain ⟨blanks, hblanks, hs, -⟩ := trimStart_eq s
  rw [← trim_append_blanks hblanks, ← hs, trim_trimStart]

section Lexemes

variable {word s more : List Char}

theorem after?_append_blank (hword : ∀ c ∈ word, isBlank c = false)
    (hmore : ∀ c ∈ more.head?, isBlank c) :
    after? word (s ++ more) = (after? word s).map (· ++ more) := by
  induction word generalizing s with
  | nil => rfl
  | cons c word ih =>
    cases s with
    | nil =>
      cases more with
      | nil => rfl
      | cons d more =>
        have hne : c ≠ d := by
          rintro rfl
          have hc := hword c (by simp)
          rw [hmore c rfl] at hc
          cases hc
        simp [after?, hne]
    | cons d s =>
      by_cases hd : c = d
      · simp [after?, hd, ih fun c hc ↦ hword c (List.mem_cons_of_mem _ hc)]
      · simp [after?, hd]

theorem isPrefixOf_eq_isSome (word s : List Char) : word.isPrefixOf s = (after? word s).isSome := by
  induction word generalizing s with
  | nil => rfl
  | cons c word ih =>
    cases s with
    | nil => rfl
    | cons d s => by_cases hd : c = d <;> simp [List.isPrefixOf, after?, hd, ih]

theorem takeWhile_append_blank {p : Char → Bool} (hp : ∀ c, p c → isBlank c = false)
    (hmore : ∀ c ∈ more.head?, isBlank c) : (s ++ more).takeWhile p = s.takeWhile p := by
  have hnil : more.takeWhile p = [] := by
    cases more with
    | nil => rfl
    | cons c more =>
      have hc : p c = false := by
        by_contra hc
        have hblank := hp c (by simpa using hc)
        rw [hmore c rfl] at hblank
        cases hblank
      simp [hc]
  rw [List.takeWhile_append, hnil, List.append_nil]
  split
  · rename_i hlength
    exact ((List.takeWhile_prefix p).eq_of_length hlength).symm
  · rfl

end Lexemes

end Lading.Text
