import Lading.Package.Name
import Lading.Proofs.Results
import Lading.Proofs.Text.Trim

namespace Lading.PackageName

open Text

theorem isNameChar_of_isWord {word : List Char} (h : isWord word) : ∀ c ∈ word, isNameChar c := by
  cases word with
  | nil => cases h
  | cons c word =>
    rw [isWord, Bool.and_eq_true, List.all_eq_true] at h
    rw [List.forall_mem_cons]
    exact ⟨by simp [isNameChar, h.1], h.2⟩

theorem notMem_of_isWord {word : List Char} (h : isWord word) {c : Char}
    (hc : isNameChar c = false) : c ∉ word := by
  intro hmem
  rw [isNameChar_of_isWord h c hmem] at hc
  cases hc

theorem ne_nil_of_isWord {word : List Char} (h : isWord word) : word ≠ [] := by
  rintro rfl
  cases h

theorem isNameStart_of_isWord {word : List Char} (h : isWord word) (rest : List Char) :
    ∀ c ∈ (word ++ rest).head?, isNameStart c := by
  cases word with
  | nil => cases h
  | cons c word =>
    rintro c ⟨⟩
    exact (Bool.and_eq_true_iff.1 h).1

/-- A name that can be written: its parts are words. -/
structure IsWritable (n : PackageName) : Prop where
  scope : ∀ scope ∈ n.scope, isWord scope.toList
  name : isWord n.name.toList

theorem not_isBlank_of_isNameChar {c : Char} (h : isNameChar c) : isBlank c = false := by
  simp only [isNameChar, isNameStart, Bool.or_eq_true, beq_iff_eq] at h
  rcases h with ((h | rfl) | rfl) | rfl
  · exact not_isBlank_of_isAlphanum c h
  all_goals rfl

theorem text_scoped (scope name : String) :
    text ⟨some scope, name⟩ = '@' :: (scope.toList ++ '/' :: name.toList) := by
  simp [text]

namespace IsWritable

variable {n : PackageName}

theorem text_ne_nil (h : n.IsWritable) : n.text ≠ [] := by
  obtain ⟨scope, name⟩ := n
  cases scope with
  | none => exact ne_nil_of_isWord h.name
  | some scope => simp [text_scoped]

theorem head_text (h : n.IsWritable) : ∀ c ∈ n.text.head?, isNameStart c ∨ c = '@' := by
  obtain ⟨scope, name⟩ := n
  intro c hc
  cases scope with
  | none =>
    have hhead := isNameStart_of_isWord h.name []
    rw [List.append_nil] at hhead
    exact .inl (hhead c hc)
  | some scope =>
    rw [text_scoped] at hc
    cases hc
    exact .inr rfl

theorem dash_notMem_head (h : n.IsWritable) : '-' ∉ n.text.head? :=
  fun hdash ↦ absurd (h.head_text '-' hdash) (by decide)

theorem isTrimmed_text (h : n.IsWritable) : IsTrimmed n.text := by
  have hword {word : List Char} (hw : isWord word) : ∀ c ∈ word, isBlank c = false :=
    fun c hc ↦ not_isBlank_of_isNameChar (isNameChar_of_isWord hw c hc)
  obtain ⟨scope, name⟩ := n
  refine isTrimmed_of_forall ?_
  cases scope with
  | none => exact hword h.name
  | some scope =>
    rw [text_scoped, List.forall_mem_cons, List.forall_mem_append, List.forall_mem_cons]
    exact ⟨rfl, hword (h.scope scope rfl), rfl, hword h.name⟩

end IsWritable

theorem splitScope_text {n : PackageName} (h : n.IsWritable) (rest : List Char) :
    splitScope (n.text ++ rest) = .ok (n.scope, n.name.toList ++ rest) := by
  obtain ⟨scope, name⟩ := n
  obtain ⟨hscope, hname⟩ := h
  cases scope with
  | none =>
    have hstart := isNameStart_of_isWord hname rest
    change splitScope (name.toList ++ rest) = _
    cases hs : name.toList ++ rest with
    | nil => exact absurd (List.append_eq_nil_iff.1 hs).1 (ne_nil_of_isWord hname)
    | cons c body =>
      have hc : c ≠ '@' := by
        rintro rfl
        exact absurd (hstart '@' (by rw [hs]; rfl)) (by decide)
      simp [splitScope, hc]
  | some scope =>
    have hword := hscope scope rfl
    have hslash : '/' ∉ scope.toList := notMem_of_isWord hword rfl
    simp [text_scoped, splitScope, cut_append hslash, ne_nil_of_isWord hword, hword]

theorem of_splitScope {s rest : List Char} {scope : Option String}
    (h : splitScope s = .ok (scope, rest)) :
    (scope = none ∧ rest = s) ∨
      ∃ word, scope = some word ∧ isWord word.toList ∧ s = '@' :: (word.toList ++ '/' :: rest) := by
  unfold splitScope at h
  split at h
  · cases h
  · rename_i c body
    split at h
    · rename_i hc
      split at h
      · cases h
      · rename_i word rest' hcut
        split at h
        · cases h
        · split at h
          · rename_i hword
            cases h
            obtain ⟨-, hbody⟩ := cut_eq_some_iff.1 hcut
            exact .inr ⟨_, rfl, by simpa using hword, by simp [hc, hbody]⟩
          · cases h
    · cases h
      exact .inl ⟨rfl, rfl⟩

theorem checkName_eq_ok_iff {s : List Char} {name : String} :
    checkName s = .ok name ↔ isWord s ∧ s = name.toList := by
  unfold checkName
  constructor
  · intro h
    split at h
    · cases h
    · split at h
      · rename_i hword
        cases h
        exact ⟨hword, by simp⟩
      · cases h
  · rintro ⟨hword, rfl⟩
    simp [ne_nil_of_isWord hword, hword]

/-- A text is read as a package name exactly if it is the text of the name. -/
theorem read_eq_ok_iff {s : List Char} {n : PackageName} :
    read s = .ok n ↔ n.IsWritable ∧ s = n.text := by
  constructor
  · intro h
    obtain ⟨⟨scope, rest⟩, hscope, h⟩ := ok_of_bind h
    obtain ⟨name, hname, h⟩ := ok_of_bind h
    cases h
    obtain ⟨hword, hrest⟩ := checkName_eq_ok_iff.1 hname
    rcases of_splitScope hscope with ⟨rfl, rfl⟩ | ⟨scope, rfl, hscoped, rfl⟩
    · exact ⟨⟨by simp, hrest ▸ hword⟩, hrest⟩
    · refine ⟨⟨by simpa using hscoped, hrest ▸ hword⟩, ?_⟩
      rw [text_scoped, hrest]
  · rintro ⟨hn, rfl⟩
    have hsplit := splitScope_text hn []
    have hcheck : checkName n.name.toList = .ok n.name := checkName_eq_ok_iff.2 ⟨hn.name, rfl⟩
    rw [List.append_nil, List.append_nil] at hsplit
    simp only [read, hsplit, ok_bind, hcheck]
    rfl

end Lading.PackageName
