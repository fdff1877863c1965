import Lading.Proofs.Manifest.Conditions
import Lading.Proofs.Predicate.Grammar

namespace Lading

open Text

/-- Behind the first closing parenthesis of a text there are such parentheses and blanks only. -/
def Predicate.ClosesAtEnd (s : List Char) : Prop :=
  ∃ front back, s = front ++ back ∧ ')' ∉ front ∧ ∀ c ∈ back, isBlank c ∨ c = ')'

namespace Predicate

theorem notMem_of_all {p : Char → Bool} {s : List Char} (h : ∀ c ∈ s, p c) {c : Char}
    (hc : p c = false) : c ∉ s :=
  fun hmem ↦ Bool.false_ne_true (hc.symm.trans (h c hmem))

theorem close_notMem_of_isBlanks {s : List Char} (hs : IsBlanks s) : ')' ∉ s :=
  notMem_of_all hs (by decide)

theorem Denotes.closesAtEnd {s : List Char} {p : Predicate} (h : Denotes s p) :
    ClosesAtEnd s := by
  induction h with
  | atom hs hs₁ hname =>
    have hname := notMem_of_all hname.all (c := ')') (by decide)
    exact ⟨_, [], (List.append_nil _).symm, by simp [close_notMem_of_isBlanks, *], by simp⟩
  | @compared _ _ _ _ _ _ comparison hs hs₁ hs₂ hs₃ hname hliteral =>
    have hname := notMem_of_all hname.all (c := ')') (by decide)
    have hliteral := notMem_of_all hliteral.all (c := ')') (by decide)
    have hsymbol : ')' ∉ comparison.symbol.toList := by cases comparison <;> decide
    exact ⟨_, [], (List.append_nil _).symm, by simp [close_notMem_of_isBlanks, *], by simp⟩
  | @joined s name s₁ _ connective _ hs hs₁ hname _ _ ih =>
    obtain ⟨front, back, rfl, hfront, hback⟩ := ih
    have hname := notMem_of_all hname.all (c := ')') (by decide)
    have hsymbol : ')' ∉ connective.symbol.toList := by cases connective <;> decide
    exact ⟨s ++ name ++ s₁ ++ connective.symbol.toList ++ front, back, by simp,
      by simp [close_notMem_of_isBlanks, *], hback⟩
  | @parenthesized s _ s₁ _ hs hs₁ _ ih =>
    obtain ⟨front, back, rfl, hfront, hback⟩ := ih
    refine ⟨s ++ ['('] ++ front, back ++ [')'] ++ s₁, by simp, ?_, ?_⟩
    · simp [close_notMem_of_isBlanks hs, hfront]
    · intro c hc
      rw [List.mem_append, List.mem_append, List.mem_singleton] at hc
      rcases hc with (hc | rfl) | hc
      · exact hback c hc
      · exact .inr rfl
      · exact .inl (hs₁ c hc)

theorem ClosesAtEnd.not_pair {s : List Char} (h : ClosesAtEnd s) : ¬[')', '.'] <:+: s := by
  obtain ⟨front, back, rfl, hfront, hback⟩ := h
  have hdot : '.' ∉ back := fun hmem ↦ absurd (hback _ hmem) (by decide)
  rintro ⟨before, after, heq⟩
  rw [List.append_assoc] at heq
  -- Where the parenthesis stands behind the front, so does the dot.
  obtain ⟨more, rfl, hmore⟩ | ⟨more, rfl, rfl⟩ := List.append_eq_append_iff.1 heq
  · cases more with
    | nil =>
      rw [List.nil_append] at hmore
      exact hdot (hmore ▸ by simp)
    | cons c more =>
      obtain ⟨rfl, -⟩ := List.cons_eq_cons.1 hmore
      exact hfront (by simp)
  · exact hdot (by simp)

end Predicate

namespace ConditionKey

theorem cutClose_cons {c : Char} {s : List Char} (h : ¬[')', '.'] <+: c :: s) :
    cutClose (c :: s) = (cutClose s).map fun (left, right) ↦ (c :: left, right) := by
  rw [cutClose]
  rintro rest rfl rfl
  exact h ⟨rest, rfl⟩

theorem cutClose_append {predicate : List Char} (h : ¬[')', '.'] <:+: predicate)
    (field : List Char) :
    cutClose (predicate ++ ')' :: '.' :: field) = some (predicate, field) := by
  induction predicate with
  | nil => rfl
  | cons c predicate ih =>
    have htail : ¬[')', '.'] <:+: predicate := fun hpair ↦
      h (hpair.trans (List.suffix_cons c predicate).isInfix)
    have hhead : ¬[')', '.'] <+: c :: (predicate ++ ')' :: '.' :: field) := by
      intro hprefix
      obtain ⟨rfl, hdot⟩ := List.cons_prefix_cons.1 hprefix
      cases predicate with
      | nil => simp at hdot
      | cons d predicate =>
        obtain ⟨rfl, -⟩ := List.cons_prefix_cons.1 hdot
        exact h ⟨[], predicate, rfl⟩
    rw [List.cons_append, cutClose_cons hhead, ih htail, Option.map_some]

theorem recognize_inline {predicate field : String} (h : ¬[')', '.'] <:+: predicate.toList)
    (hne : field ≠ "") (hlast : field.toList.getLast? ≠ some ')') :
    recognize ("cfg(" ++ predicate ++ ")." ++ field) = some (.inline predicate field) := by
  have hfield : field.toList ≠ [] := fun hnil ↦ hne (String.toList_inj.1 hnil)
  have hkey : ("cfg(" ++ predicate ++ ")." ++ field).toList =
      opening ++ (predicate.toList ++ ')' :: '.' :: field.toList) := by
    simp [opening, String.toList_append]
  have hend : (predicate.toList ++ ')' :: '.' :: field.toList).getLast? =
      field.toList.getLast? := by
    rw [List.append_cons, List.append_cons, List.getLast?_append_of_ne_nil _ hfield]
  unfold recognize
  rw [hkey, Text.after?_append]
  -- The field is not empty, which selects the case of a field.
  simp only [hend, if_neg hlast, cutClose_append h]
  rw [String.ofList_toList, String.ofList_toList]

theorem recognize_closed (predicate : String) :
    recognize ("cfg(" ++ predicate ++ ")") = some (.block predicate) := by
  have hkey : "cfg(" ++ predicate ++ ")" =
      String.ofList (opening ++ predicate.toList ++ [')']) := by
    rw [← String.toList_inj, String.toList_ofList]
    simp [opening, String.toList_append]
  rw [hkey, recognize_block, String.ofList_toList]

end ConditionKey

namespace FieldEntry

inductive Stands (document : Json.Fields) (entry : FieldEntry) : Prop
  | plain {key : String} {value : Json} (hmem : (key, value) ∈ document)
      (hkey : ∀ k, ConditionKey.recognize key = some k →
        k = .block k.predicate ∧ ∀ fields, value ≠ .object fields)
      (hentry : entry = ⟨none, key, value⟩) (hpredicate : entry.predicate? = none)
      (hinline : entry.isInline = false)
  | block {key predicate : String} {fields : Json.Fields} (hmem : (key, .object fields) ∈ document)
      (hkey : ConditionKey.recognize key = some (.block predicate))
      (hfield : (entry.name, entry.value) ∈ fields) (hcondition : entry.condition = some key)
      (hpredicate : entry.predicate? = some predicate) (hinline : entry.isInline = false)
  | inline {key predicate condition : String} (hmem : (key, entry.value) ∈ document)
      (hkey : ConditionKey.recognize key = some (.inline predicate entry.name))
      (hcondition : entry.condition = some condition) (happend : condition ++ entry.name = key)
      (hpredicate : entry.predicate? = some predicate) (hinline : entry.isInline = true)

theorem stands_of_mem_ofField {document : Json.Fields} {key : String} {value : Json}
    {entry : FieldEntry} (hmem : (key, value) ∈ document) (h : entry ∈ ofField key value) :
    Stands document entry := by
  unfold ofField at h
  split at h
  · rename_i predicate fields hkey
    obtain ⟨⟨name, field⟩, hfield, rfl⟩ := List.mem_map.1 h
    have hpredicate := predicate?_block hkey name field
    exact .block hmem hkey hfield rfl hpredicate (endsInDot_of_block hkey)
  · rename_i predicate field hkey
    obtain rfl := List.mem_singleton.1 h
    have hcondition := ConditionKey.take_of_inline hkey
    refine .inline hmem hkey rfl ?_ (predicate?_inline hkey _) ?_
    · rw [← String.toList_inj, String.toList_append, String.toList_ofList, hcondition,
        ConditionKey.key_of_inline hkey]
    · simp [isInline, endsInDot, hcondition]
  · rename_i hinline hblock
    obtain rfl := List.mem_singleton.1 h
    refine .plain hmem ?_ rfl rfl rfl
    intro k hk
    cases k with
    | block predicate => exact ⟨rfl, fun fields ↦ hblock predicate fields hk⟩
    | inline predicate field => exact absurd hk (hinline predicate field)

theorem stands_of_mem_all {document : Json.Fields} {entry : FieldEntry}
    (h : entry ∈ all document) : Stands document entry := by
  obtain ⟨⟨key, value⟩, hmem, hentry⟩ := List.mem_flatMap.1 h
  exact stands_of_mem_ofField hmem hentry

/-- No predicate has a `).` in it, so that a key is recognized with the predicate that was written
into it, and every entry of a document has the predicate of its key. -/
theorem keys_recognized :
    (∀ source p, Predicate.parse source = .ok p → ¬[')', '.'] <:+: source.toList) ∧
    (∀ source p field, Predicate.parse source = .ok p → field ≠ "" →
      field.toList.getLast? ≠ some ')' →
        ConditionKey.recognize ("cfg(" ++ source ++ ")." ++ field) =
          some (.inline source field)) ∧
    (∀ source, ConditionKey.recognize ("cfg(" ++ source ++ ")") = some (.block source)) ∧
    ∀ document entry, entry ∈ all document → Stands document entry := by
  have hpair : ∀ source p, Predicate.parse source = .ok p → ¬[')', '.'] <:+: source.toList :=
    fun source p h ↦ (Predicate.parse_eq_ok_iff.1 h).closesAtEnd.not_pair
  refine ⟨hpair, ?_, ConditionKey.recognize_closed, fun document entry ↦ stands_of_mem_all⟩
  intro source p field h hne hlast
  exact ConditionKey.recognize_inline (hpair source p h) hne hlast

theorem keys_recognized_nested :
    ConditionKey.recognize ("cfg(" ++ "(a or (n >= 1.2.0-x.1) )" ++ ")." ++ "f).g") =
        some (.inline "(a or (n >= 1.2.0-x.1) )" "f).g") ∧
      Stands [("cfg(a).b", .null)] ⟨some "cfg(a).", "b", .null⟩ := by
  obtain ⟨-, hinline, -, hentries⟩ := keys_recognized
  have haccepts : (Predicate.parse "(a or (n >= 1.2.0-x.1) )").toOption.isSome := by
    decide +kernel
  have hkey : ConditionKey.recognize "cfg(a).b" = some (.inline "a" "b") := by decide
  have hall : all [("cfg(a).b", .null)] = [⟨some "cfg(a).", "b", .null⟩] := by
    simp only [all, ofField, hkey, List.flatMap_cons, List.flatMap_nil, List.append_nil]
    rfl
  obtain ⟨p, hparse⟩ := ok_of_isSome_toOption haccepts
  refine ⟨hinline _ p _ hparse (by decide) (by decide), hentries _ _ ?_⟩
  rw [hall]
  exact List.mem_singleton_self _

end FieldEntry

end Lading
