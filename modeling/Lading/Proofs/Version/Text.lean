import Lading.Version.Reader
import Lading.Proofs.Results
import Lading.Proofs.Text.Decimal
import Lading.Proofs.Text.Parts
import Lading.Proofs.Text.Runs

namespace Lading.Version

open Text

/-- An identifier between the dots of a part. A number of a pre-release has no leading zero. -/
structure IsIdentifier (part : Part) (segment : List Char) : Prop where
  ne_nil : segment ≠ []
  chars : ∀ c ∈ segment, isIdentifierChar c
  number : part = .preRelease → (∀ c ∈ segment, c.isDigit) → segment.head? = some '0' →
    segment = ['0']

structure IsStrict (v : Version) : Prop where
  preRelease : ∀ identifier ∈ v.preRelease, IsIdentifier .preRelease identifier.toList
  build : ∀ identifier ∈ v.build, IsIdentifier .build identifier.toList

section Number

variable {part : Part} {n : UInt64} {s rest : List Char}

theorem readNumber_decimal (hrest : ∀ c ∈ rest.head?, c.isDigit = false) :
    readNumber part (decimal n.toNat ++ rest) = .ok (n, rest) := by
  unfold readNumber
  rw [takeWhile_run (isDigit_decimal _) hrest, dropWhile_run (isDigit_decimal _) hrest]
  have hof : ofDecimal (decimal n.toNat) = n.toNat := ofDecimal_decimal _
  cases hdigits : decimal n.toNat with
  | nil => exact absurd hdigits (decimal_ne_nil _)
  | cons d more =>
    have hzero : ¬(d = '0' ∧ more ≠ []) := by
      rintro ⟨rfl, hmore⟩
      have hn : n.toNat = 0 := eq_zero_of_head_decimal (by rw [hdigits]; rfl)
      rw [hn] at hdigits
      cases hdigits
      exact hmore rfl
    rw [hdigits] at hof
    simp only [hzero, if_false, hof, n.toNat_lt, if_true, UInt64.ofNat_toNat]

theorem eq_of_readNumber (h : readNumber part s = .ok (n, rest)) :
    s = decimal n.toNat ++ rest := by
  unfold readNumber at h
  have hall : ∀ c ∈ s.takeWhile Char.isDigit, c.isDigit := fun c ↦ List.mem_takeWhile_imp
  have hs : s.takeWhile Char.isDigit ++ s.dropWhile Char.isDigit = s :=
    List.takeWhile_append_dropWhile
  dsimp only at h
  split at h
  · split at h <;> cases h
  · rename_i d more hdigits
    split at h
    · cases h
    · rename_i hzero
      split at h
      · rename_i hsize
        cases h
        have hleading : (d :: more).head? = some '0' → d :: more = ['0'] := by
          intro hd
          cases hd
          have hmore : more = [] := by simpa using hzero
          rw [hmore]
        rw [hdigits] at hall hs hsize ⊢
        rw [UInt64.toNat_ofNat_of_lt' hsize, decimal_ofDecimal (by simp) hall hleading, hs]
      · cases h

end Number

section Identifiers

variable {part last last' : Part} {identifiers : List String} {s rest : List Char} {mark : Char}

theorem segmentFault?_eq_none_iff {segment : List Char}
    (hchars : ∀ c ∈ segment, isIdentifierChar c) :
    segmentFault? part segment = none ↔ IsIdentifier part segment := by
  unfold segmentFault?
  constructor
  · intro h
    split at h
    · cases h
    · rename_i hne
      split at h
      · cases h
      · rename_i hzero
        refine ⟨hne, hchars, ?_⟩
        intro hpart hdigits hhead
        have hlength : segment.length ≤ 1 := by
          by_contra hlong
          exact hzero ⟨hpart, List.all_eq_true.2 hdigits, by omega, hhead⟩
        cases segment with
        | nil => cases hhead
        | cons c segment => simp_all
  · rintro ⟨hne, -, hnumber⟩
    rw [if_neg hne, if_neg]
    rintro ⟨hpart, hdigits, hlength, hhead⟩
    rw [hnumber hpart (List.all_eq_true.1 hdigits) hhead] at hlength
    exact absurd hlength (by decide)

theorem IsIdentifier.dot_notMem {segment : List Char} (h : IsIdentifier part segment) :
    '.' ∉ segment :=
  fun hmem ↦ absurd (h.chars _ hmem) (by decide)

theorem splitOn_dotted (hne : identifiers ≠ [])
    (hids : ∀ identifier ∈ identifiers, IsIdentifier part identifier.toList) :
    (dotted identifiers).splitOn '.' = identifiers.map String.toList :=
  List.splitOn_intercalate '.' (List.forall_mem_map.2 fun identifier hid ↦
    (hids identifier hid).dot_notMem) (by simpa using hne)

theorem readIdentifiers_dotted (hne : identifiers ≠ [])
    (hids : ∀ identifier ∈ identifiers, IsIdentifier part identifier.toList)
    (hrest : ∀ c ∈ rest.head?, isIdentifierChar c = false ∧ c ≠ '.') :
    readIdentifiers part (dotted identifiers ++ rest) = .ok (identifiers, rest) := by
  have hbody : ∀ c ∈ dotted identifiers, (isIdentifierChar c || c == '.') := by
    intro c hc
    rcases mem_joinWith hc with rfl | ⟨segment, hsegment, hc⟩
    · rfl
    · obtain ⟨identifier, hid, rfl⟩ := List.mem_map.1 hsegment
      simp [(hids identifier hid).chars c hc]
  have hend : ∀ c ∈ rest.head?, (isIdentifierChar c || c == '.') = false := by
    intro c hc
    simp [hrest c hc]
  have hfault : (identifiers.map String.toList).findSome? (segmentFault? part) = none := by
    rw [List.findSome?_eq_none_iff, List.forall_mem_map]
    intro identifier hid
    exact (segmentFault?_eq_none_iff (hids identifier hid).chars).2 (hids identifier hid)
  have hmap : (identifiers.map String.toList).map String.ofList = identifiers := by simp
  simp only [readIdentifiers, takeWhile_run hbody hend, dropWhile_run hbody hend,
    splitOn_dotted hne hids, hfault, hmap]

theorem eq_of_readIdentifiers (h : readIdentifiers part s = .ok (identifiers, rest)) :
    s = dotted identifiers ++ rest ∧ identifiers ≠ [] ∧
      ∀ identifier ∈ identifiers, IsIdentifier part identifier.toList := by
  unfold readIdentifiers at h
  dsimp only at h
  split at h
  · cases h
  · rename_i hfault
    cases h
    have hmap (segments : List (List Char)) :
        (segments.map String.ofList).map String.toList = segments := by simp
    refine ⟨?_, by simp, ?_⟩
    · rw [dotted, hmap, joinWith, List.intercalate_splitOn, List.takeWhile_append_dropWhile]
    · rw [List.forall_mem_map]
      intro segment hsegment
      rw [String.toList_ofList]
      refine (segmentFault?_eq_none_iff ?_).1 (List.findSome?_eq_none_iff.1 hfault segment hsegment)
      intro c hc
      have hdot : c ≠ '.' := by
        rintro rfl
        exact mark_not_mem_splitOn '.' hsegment hc
      have hbody := List.mem_takeWhile_imp (mem_of_mem_splitOn hsegment hc)
      simpa [hdot] using hbody

theorem readSuffix_suffix (last : Part)
    (hids : ∀ identifier ∈ identifiers, IsIdentifier part identifier.toList)
    (hrest : ∀ c ∈ rest.head?, isIdentifierChar c = false ∧ c ≠ '.' ∧ c ≠ mark) :
    ∃ last', readSuffix mark part last (suffix mark identifiers ++ rest) =
      .ok (identifiers, rest, last') := by
  cases identifiers with
  | nil =>
    cases rest with
    | nil => exact ⟨last, rfl⟩
    | cons c rest => exact ⟨last, by simp [suffix, readSuffix, hrest c rfl]⟩
  | cons identifier identifiers =>
    have hread := readIdentifiers_dotted (by simp) hids
      (fun c hc ↦ ⟨(hrest c hc).1, (hrest c hc).2.1⟩)
    refine ⟨part, ?_⟩
    simp only [suffix, List.isEmpty_cons, Bool.false_eq_true, if_false, List.cons_append,
      readSuffix, if_true, hread]
    rfl

theorem eq_of_readSuffix (h : readSuffix mark part last s = .ok (identifiers, rest, last')) :
    s = suffix mark identifiers ++ rest ∧
      ∀ identifier ∈ identifiers, IsIdentifier part identifier.toList := by
  cases s with
  | nil =>
    cases h
    exact ⟨rfl, by simp⟩
  | cons c s =>
    rw [readSuffix] at h
    split at h
    · rename_i hc
      obtain ⟨⟨identifiers', rest'⟩, hread, h⟩ := ok_of_bind h
      cases h
      obtain ⟨hs, hne, hids⟩ := eq_of_readIdentifiers hread
      refine ⟨?_, hids⟩
      simp [suffix, hne, hc, hs]
    · cases h
      exact ⟨rfl, by simp⟩

end Identifiers

theorem eq_of_readDot {part : Part} {s rest : List Char} (h : readDot part s = .ok rest) :
    s = '.' :: rest := by
  cases s with
  | nil => cases h
  | cons c s =>
    simp only [readDot] at h
    split at h
    · cases h
      simp_all
    · cases h

theorem readDot_dot (part : Part) (s : List Char) : readDot part ('.' :: s) = .ok s := rfl

theorem eq_mark_of_head_suffix {mark : Char} {identifiers : List String} :
    ∀ c ∈ (suffix mark identifiers).head?, c = mark := by
  intro c hc
  unfold suffix at hc
  split at hc <;> cases hc
  rfl

theorem read_text {v : Version} (hv : v.IsStrict) : read v.text = .ok v := by
  have hbuildEnd : ∀ c ∈ (suffix '+' v.build).head?,
      isIdentifierChar c = false ∧ c ≠ '.' ∧ c ≠ '-' := by
    intro c hc
    rw [eq_mark_of_head_suffix c hc]
    decide
  have hpatchEnd : ∀ c ∈ (suffix '-' v.preRelease ++ suffix '+' v.build).head?,
      c.isDigit = false :=
    forall_head_append (fun c hc ↦ eq_mark_of_head_suffix c hc ▸ rfl)
      fun c hc ↦ eq_mark_of_head_suffix c hc ▸ rfl
  have hdot (s : List Char) : ∀ c ∈ ('.' :: s).head?, c.isDigit = false := by
    rintro c ⟨⟩
    rfl
  have hend : ∀ c ∈ ([] : List Char).head?, isIdentifierChar c = false ∧ c ≠ '.' ∧ c ≠ '+' := by
    simp
  obtain ⟨last, hpre⟩ := readSuffix_suffix .patch hv.preRelease hbuildEnd
  obtain ⟨last', hbuild⟩ := readSuffix_suffix last hv.build hend
  rw [List.append_nil] at hbuild
  have htext : v.text = decimal v.major.toNat ++ ('.' :: (decimal v.minor.toNat ++ ('.' ::
      (decimal v.patch.toNat ++ (suffix '-' v.preRelease ++ suffix '+' v.build))))) := by
    simp [text]
  have hne : v.text ≠ [] := by simp [htext]
  rw [read, if_neg hne, htext]
  simp only [ok_bind, readNumber_decimal (hdot _), readDot_dot,
    readNumber_decimal hpatchEnd, hpre, hbuild]
  rfl

theorem eq_text_of_read {s : List Char} {v : Version} (h : read s = .ok v) :
    v.IsStrict ∧ s = v.text := by
  unfold read at h
  split at h
  · cases h
  obtain ⟨⟨major, s₁⟩, hmajor, h⟩ := ok_of_bind h
  obtain ⟨s₂, hdot₁, h⟩ := ok_of_bind h
  obtain ⟨⟨minor, s₃⟩, hminor, h⟩ := ok_of_bind h
  obtain ⟨s₄, hdot₂, h⟩ := ok_of_bind h
  obtain ⟨⟨patch, s₅⟩, hpatch, h⟩ := ok_of_bind h
  obtain ⟨⟨preRelease, s₆, last⟩, hpre, h⟩ := ok_of_bind h
  obtain ⟨⟨build, s₇, last'⟩, hbuild, h⟩ := ok_of_bind h
  cases s₇ with
  | cons c s₇ => cases h
  | nil =>
    cases h
    obtain ⟨hs₅, hpreRelease⟩ := eq_of_readSuffix hpre
    obtain ⟨hs₆, hbuild'⟩ := eq_of_readSuffix hbuild
    refine ⟨⟨hpreRelease, hbuild'⟩, ?_⟩
    rw [eq_of_readNumber hmajor, eq_of_readDot hdot₁, eq_of_readNumber hminor,
      eq_of_readDot hdot₂, eq_of_readNumber hpatch, hs₅, hs₆]
    simp [text]

/-- A text is read as a version exactly if it is the version's text. -/
theorem read_eq_ok_iff {s : List Char} {v : Version} :
    read s = .ok v ↔ v.IsStrict ∧ s = v.text :=
  ⟨eq_text_of_read, fun ⟨hv, hs⟩ ↦ hs ▸ read_text hv⟩

theorem text_eq_cons (v : Version) : ∃ d more, v.text = d :: more ∧ d.isDigit := by
  cases hdigits : decimal v.major.toNat with
  | nil => exact absurd hdigits (decimal_ne_nil _)
  | cons d more =>
    have hd := isDigit_decimal v.major.toNat d (by simp [hdigits])
    exact ⟨d, _, by rw [text, hdigits]; rfl, hd⟩

def isTextChar (c : Char) : Bool := isIdentifierChar c || c == '.' || c == '+'

theorem isGraphic_of_isTextChar {c : Char} (h : isTextChar c) : isGraphic c := by
  simp only [isTextChar, isIdentifierChar, Bool.or_eq_true, beq_iff_eq] at h
  rcases h with ((h | rfl) | rfl) | rfl
  · exact isGraphic_of_isAlphanum h
  · rfl
  · rfl
  · rfl

theorem isTextChar_suffix {part : Part} {identifiers : List String} {mark : Char}
    (hids : ∀ identifier ∈ identifiers, IsIdentifier part identifier.toList)
    (hmark : isTextChar mark) : ∀ c ∈ suffix mark identifiers, isTextChar c := by
  intro c hc
  unfold suffix at hc
  split at hc
  · cases hc
  · rcases List.mem_cons.1 hc with rfl | hc
    · exact hmark
    · rcases mem_joinWith hc with rfl | ⟨segment, hsegment, hc⟩
      · rfl
      · obtain ⟨identifier, hid, rfl⟩ := List.mem_map.1 hsegment
        simp [isTextChar, (hids identifier hid).chars c hc]

theorem IsStrict.isTextChar_text {v : Version} (hv : v.IsStrict) :
    ∀ c ∈ v.text, isTextChar c := by
  have hnumber (n : Nat) : ∀ c ∈ decimal n, isTextChar c := by
    intro c hc
    simp [isTextChar, isIdentifierChar, Char.isAlphanum, isDigit_decimal n c hc]
  have hpre := isTextChar_suffix hv.preRelease (show isTextChar '-' from rfl)
  have hbuild := isTextChar_suffix hv.build (show isTextChar '+' from rfl)
  intro c hc
  simp only [text, List.mem_append, List.mem_cons] at hc
  rcases hc with (((hc | rfl | hc) | rfl | hc) | hc) | hc
  · exact hnumber _ c hc
  · rfl
  · exact hnumber _ c hc
  · rfl
  · exact hnumber _ c hc
  · exact hpre c hc
  · exact hbuild c hc

end Lading.Version
