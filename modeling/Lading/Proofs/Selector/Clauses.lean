import Lading.Proofs.Selector.Spelling

namespace Lading

open Text

theorem Operator.of_split {token rest : List Char} {operator : Operator}
    (h : split token = some (operator, rest)) :
    ∃ spelling, (spelling, operator) ∈ spellings ∧ token = spelling ++ rest := by
  obtain ⟨⟨spelling, operator'⟩, hmem, hafter⟩ := List.exists_of_findSome?_eq_some h
  obtain ⟨rest', hrest, heq⟩ := Option.map_eq_some_iff.1 hafter
  cases heq
  exact ⟨spelling, hmem, after?_eq_some_iff.1 hrest⟩

theorem Comparator.read_eq_ok_iff {token : List Char} {c : Comparator}
    (htoken : ∀ d ∈ token, isBlank d = false) : read token = .ok c ↔ c.Spelled token := by
  constructor
  · intro h
    unfold read at h
    cases hsplit : Operator.split token with
    | none =>
      simp only [hsplit, Option.getD_none] at h
      split at h
      · rename_i version hversion
        cases h
        obtain ⟨hstrict, rfl⟩ := Version.read_eq_ok_iff.1 hversion
        exact .plain rfl hstrict
      · cases h
    | some found =>
      obtain ⟨operator, rest⟩ := found
      obtain ⟨spelling, hspelling, rfl⟩ := Operator.of_split hsplit
      simp only [hsplit, Option.getD_some] at h
      split at h
      · rename_i version hversion
        cases h
        obtain ⟨hstrict, rfl⟩ := Version.read_eq_ok_iff.1 hversion
        simpa using Spelled.signed (c := ⟨operator, version⟩) hspelling isBlanks_nil hstrict
      · cases h
  · intro h
    cases h with
    | plain hoperator hversion =>
      rw [read_plain hversion, ← hoperator]
    | @signed spelling blanks hoperator hblanks hversion =>
      have hnil : blanks = [] := by
        rw [List.eq_nil_iff_forall_not_mem]
        intro d hd
        have hfalse := htoken d (by simp [hd])
        rw [hblanks d hd] at hfalse
        cases hfalse
      rw [hnil, List.append_nil]
      exact read_signed hoperator hversion

theorem Comparator.Spelled.exists_digit {token : List Char} {c : Comparator}
    (h : c.Spelled token) : ∃ d ∈ token, d.isDigit := by
  obtain ⟨d, rest, htext, hd⟩ := c.version.text_eq_cons
  refine ⟨d, ?_, hd⟩
  cases h <;> simp [htext]

/-- The clauses of a group as texts list them. An operator may be a text of its own, and then
belongs to the text behind it. -/
inductive Group.Listed : Group → List (List Char) → Prop
  | nil : Listed [] []
  | star {group : Group} {tokens : List (List Char)} (hgroup : Listed group tokens) :
      Listed group (['*'] :: tokens)
  | clause {c : Comparator} {group : Group} {token : List Char} {tokens : List (List Char)}
      (hclause : c.Spelled token) (hgroup : Listed group tokens) :
      Listed (c :: group) (token :: tokens)
  | apart {c : Comparator} {group : Group} {operator : Operator} {spelling token : List Char}
      {tokens : List (List Char)} (hoperator : (spelling, operator) ∈ Operator.spellings)
      (hclause : c.Spelled (spelling ++ token)) (hgroup : Listed group tokens) :
      Listed (c :: group) (spelling :: token :: tokens)

namespace Selector

theorem mem_of_isBareOperator {token : List Char} (h : isBareOperator token) :
    ∃ operator, (token, operator) ∈ Operator.spellings := by
  obtain ⟨⟨spelling, operator⟩, hmem, heq⟩ := List.any_eq_true.1 h
  rw [← beq_iff_eq.1 heq]
  exact ⟨operator, hmem⟩

theorem readClauses_eq_ok_iff {tokens : List (List Char)} {group : Group}
    (htokens : ∀ token ∈ tokens, ∀ c ∈ token, isBlank c = false) :
    readClauses tokens = .ok group ↔ group.Listed tokens := by
  constructor
  · intro h
    fun_induction readClauses tokens generalizing group with
    | case1 =>
      cases h
      exact .nil
    | case2 tokens ih =>
      exact .star (ih (fun token hmem ↦ htokens token (List.mem_cons_of_mem _ hmem)) h)
    | case3 => cases h
    | case4 token hstar hbare version tokens ih =>
      obtain ⟨c, hc, h⟩ := ok_of_bind h
      obtain ⟨clauses, hclauses, h⟩ := ok_of_bind h
      cases h
      rw [List.forall_mem_cons, List.forall_mem_cons] at htokens
      obtain ⟨htoken, hversion, htokens⟩ := htokens
      obtain ⟨operator, hoperator⟩ := mem_of_isBareOperator hbare
      have hspelled := (Comparator.read_eq_ok_iff
        (List.forall_mem_append.2 ⟨htoken, hversion⟩)).1 hc
      exact .apart hoperator hspelled (ih htokens hclauses)
    | case5 token tokens hstar hbare ih =>
      obtain ⟨c, hc, h⟩ := ok_of_bind h
      obtain ⟨clauses, hclauses, h⟩ := ok_of_bind h
      cases h
      rw [List.forall_mem_cons] at htokens
      exact .clause ((Comparator.read_eq_ok_iff htokens.1).1 hc) (ih htokens.2 hclauses)
  · intro h
    induction h with
    | nil => rfl
    | star hgroup ih =>
      rw [readClauses_star]
      exact ih fun token hmem ↦ htokens token (List.mem_cons_of_mem _ hmem)
    | clause hclause hgroup ih =>
      rw [List.forall_mem_cons] at htokens
      obtain ⟨d, hmem, hd⟩ := hclause.exists_digit
      rw [readClauses_token hmem hd ((Comparator.read_eq_ok_iff htokens.1).2 hclause),
        ih htokens.2]
      rfl
    | apart hoperator hclause hgroup ih =>
      rw [List.forall_mem_cons, List.forall_mem_cons] at htokens
      obtain ⟨hspelling, htoken, htokens⟩ := htokens
      have hread := (Comparator.read_eq_ok_iff
        (List.forall_mem_append.2 ⟨hspelling, htoken⟩)).2 hclause
      rw [readClauses_operator hoperator hread, ih htokens]
      rfl

theorem of_mem_tokens {s token : List Char} (h : token ∈ tokens s) :
    token ≠ [] ∧ ∀ c ∈ token, c ∈ s ∧ isBlank c = false := by
  obtain ⟨hmem, hne⟩ := List.mem_filter.1 h
  refine ⟨by simpa using hne, fun c hc ↦ ?_⟩
  obtain ⟨hs, hsplit⟩ := of_mem_splitOnP hmem c hc
  exact ⟨hs, (Bool.or_eq_false_iff.1 hsplit).1⟩

theorem tokens_eq_nil_iff {s : List Char} : tokens s = [] ↔ ∀ c ∈ s, isBlank c ∨ c = ',' := by
  induction s with
  | nil => simp [tokens]
  | cons c s ih =>
    by_cases hc : isBlank c ∨ c = ','
    · rw [tokens_cons hc, ih, List.forall_mem_cons, and_iff_right hc]
    · have hsplit : (isBlank c || c == ',') = false := by simpa using hc
      obtain ⟨first, rest, hrest⟩ := List.exists_cons_of_ne_nil
        (List.splitOnP_ne_nil (fun c ↦ isBlank c || c == ',') s)
      simp [tokens, List.splitOnP_cons_eq_if_modifyHead, hsplit, hrest, hc]

theorem tokens_trim (s : List Char) : tokens (trim s) = tokens s := by
  obtain ⟨front, back, hfront, hback, hs⟩ := exists_blanks_trim s
  have hend : tokens (trim s ++ back) = tokens (trim s) := by
    cases back with
    | nil => rw [List.append_nil]
    | cons c back =>
      rw [IsBlanks, List.forall_mem_cons] at hback
      rw [tokens_append_cons (.inl hback.1),
        tokens_eq_nil_iff.2 fun d hd ↦ .inl (hback.2 d hd), List.append_nil]
  calc tokens (trim s)
      = tokens (front ++ (trim s ++ back)) := by
        rw [tokens_append_left fun c hc ↦ .inl (hfront c hc), hend]
    _ = tokens s := by rw [← List.append_assoc, ← hs]

def Holds (part : List Char) (group : Group) : Prop :=
  ¬IsBlanks part ∧ group.Listed (tokens part)

theorem readGroup_eq_ok_iff {part : List Char} {group : Group} :
    readGroup part = .ok group ↔ Holds part group := by
  have hlisted : readClauses (tokens part) = .ok group ↔ group.Listed (tokens part) :=
    readClauses_eq_ok_iff fun token hmem c hc ↦ ((of_mem_tokens hmem).2 c hc).2
  simp only [readGroup, tokens_trim, trim_eq_nil_iff, Holds, ← hlisted]
  split <;> simp_all

theorem read_eq_ok_iff {s : List Char} {groups : List Group} :
    read s = .ok ⟨groups⟩ ↔ List.Forall₂ Holds (splitBars (trim s)) groups := by
  have hread : List.Forall₂ Holds (splitBars (trim s)) groups ↔
      (splitBars (trim s)).mapM readGroup = .ok groups := by
    rw [mapM_eq_ok_iff]
    simp only [readGroup_eq_ok_iff]
  rw [hread]
  by_cases hs : trim s = []
  · have hempty : (splitBars []).mapM readGroup = .error .emptyAlternative := rfl
    simp [read, hs, hempty]
  · simp only [read, hs, if_false]
    cases (splitBars (trim s)).mapM readGroup with
    | error fault => simp [bind, Except.bind]
    | ok groups' => simp [bind, Except.bind, pure, Except.pure]

/-- A part that has commas, and nothing else but blanks. -/
def IsVoid (part : List Char) : Prop := ',' ∈ part ∧ ∀ c ∈ part, isBlank c ∨ c = ','

instance (part : List Char) : Decidable (IsVoid part) :=
  decidable_of_iff (',' ∈ part ∧ part.all fun c ↦ isBlank c || c == ',') (by simp [IsVoid])

def ListsClauses (part : List Char) : Prop :=
  ∃ clause clauses, Group.Listed (clause :: clauses) (tokens part)

theorem isVoid_iff {part : List Char} : IsVoid part ↔ ¬IsBlanks part ∧ tokens part = [] := by
  rw [tokens_eq_nil_iff, IsVoid]
  refine and_congr_left fun hall ↦ ⟨?_, ?_⟩
  · intro hcomma hblanks
    exact absurd (hblanks _ hcomma) (by decide)
  · intro hblanks
    simp only [IsBlanks, not_forall] at hblanks
    obtain ⟨c, hc, hnot⟩ := hblanks
    rw [← (hall c hc).resolve_left hnot]
    exact hc

theorem listed_nil_iff {part : List Char} (hstar : '*' ∉ part) :
    Group.Listed [] (tokens part) ↔ tokens part = [] := by
  constructor
  · intro h
    cases htokens : tokens part with
    | nil => rfl
    | cons token rest =>
      have htoken : token ∈ tokens part := by simp [htokens]
      rw [htokens] at h
      cases h
      exact absurd ((of_mem_tokens htoken).2 '*' List.mem_cons_self).1 hstar
  · intro h
    rw [h]
    exact .nil

theorem Holds.cases {part : List Char} {group : Group} (h : Holds part group)
    (hstar : '*' ∉ part) : (group = [] ↔ IsVoid part) ∧ (ListsClauses part ∨ IsVoid part) := by
  obtain ⟨hblanks, hlisted⟩ := h
  rw [isVoid_iff]
  cases group with
  | nil =>
    have hnil := (listed_nil_iff hstar).1 hlisted
    exact ⟨⟨fun _ ↦ ⟨hblanks, hnil⟩, fun _ ↦ rfl⟩, .inr ⟨hblanks, hnil⟩⟩
  | cons clause clauses =>
    refine ⟨⟨fun hnil ↦ (by cases hnil), fun hvoid ↦ ?_⟩, .inl ⟨clause, clauses, hlisted⟩⟩
    rw [hvoid.2] at hlisted
    cases hlisted

theorem star_notMem_parts {s part : List Char} (hs : '*' ∉ s) (hpart : part ∈ splitBars (trim s)) :
    '*' ∉ part :=
  fun hmem ↦ hs (mem_of_mem_trim (mem_of_mem_splitBars hpart hmem))

theorem code_of_parse {input : String} {error : PackageError} (h : parse input = .error error) :
    error.code = "PKG_SELECTOR_INVALID" := by
  unfold parse at h
  cases hread : read input.toList with
  | ok selector =>
    rw [hread] at h
    cases h
  | error fault =>
    rw [hread] at h
    cases h
    rfl

/-- Where no star is written, a selector takes every version if one of its parts is void. Any other
part without clauses is an error. -/
theorem parse_starless (s : String) (hs : '*' ∉ s.toList) :
    (∀ selector, parse s = .ok selector →
      (selector.isAny ↔ ∃ part ∈ splitBars (trim s.toList), IsVoid part) ∧
        ((∀ group ∈ selector.alternatives, group ≠ []) ↔
          ∀ part ∈ splitBars (trim s.toList), ¬IsVoid part)) ∧
    ((∃ part ∈ splitBars (trim s.toList), ¬ListsClauses part ∧ ¬IsVoid part) →
      ∃ error, parse s = .error error ∧ error.code = "PKG_SELECTOR_INVALID") := by
  have hparts {selector : Selector} (hparse : parse s = .ok selector) :
      List.Forall₂ (fun part group ↦ (group = [] ↔ IsVoid part) ∧
        (ListsClauses part ∨ IsVoid part)) (splitBars (trim s.toList)) selector.alternatives := by
    have hholds := read_eq_ok_iff.1 (ok_of_mapError hparse)
    have hstarless := (List.forall₂_and_left _ _).2
      ⟨fun part hpart ↦ star_notMem_parts hs hpart, hholds⟩
    exact hstarless.imp fun part group h ↦ h.2.cases h.1
  constructor
  · intro selector hparse
    have hempty := exists_mem_iff_of_forall₂ ((hparts hparse).imp fun part group h ↦ h.1)
    constructor
    · rw [← hempty]
      simp [isAny]
    · simpa only [not_exists, not_and] using not_congr hempty
  · rintro ⟨part, hpart, hclauses, hvoid⟩
    cases hparse : parse s with
    | error error => exact ⟨error, rfl, code_of_parse hparse⟩
    | ok selector =>
      obtain ⟨group, -, hpart⟩ := exists_of_forall₂ (hparts hparse) hpart
      exact absurd hpart (not_or_intro hclauses hvoid)

/-- A comma is taken for a star. -/
theorem parse_comma : ¬∀ s selector, '*' ∉ s.toList → parse s = .ok selector →
    (∀ group ∈ selector.alternatives, group ≠ []) ∧ selector.isAny = false := by
  intro h
  have hparse : parse "," = .ok any := by decide
  exact absurd (h "," any (by decide) hparse).2 (by decide)

theorem parse_starless_commas :
    '*' ∉ ">=1.0.0 || , ,".toList ∧
      parse ">=1.0.0 || , ," = .ok ⟨[[⟨.greaterEq, .release 1 0 0⟩], []]⟩ ∧
      isAny ⟨[[⟨.greaterEq, .release 1 0 0⟩], []]⟩ ∧
      ∃ error, parse ">=1.0.0 ||" = .error error ∧ error.code = "PKG_SELECTOR_INVALID" := by
  have hs : '*' ∉ ">=1.0.0 || , ,".toList := by decide
  have hparse : parse ">=1.0.0 || , ," = .ok ⟨[[⟨.greaterEq, .release 1 0 0⟩], []]⟩ := by
    decide +kernel
  have hvoid : [' ', ',', ' ', ','] ∈ splitBars (trim ">=1.0.0 || , ,".toList) := by
    decide +kernel
  have hnothing : [] ∈ splitBars (trim ">=1.0.0 ||".toList) := by decide +kernel
  refine ⟨hs, hparse, ((parse_starless _ hs).1 _ hparse).1.2 ⟨_, hvoid, by decide⟩, ?_⟩
  refine (parse_starless ">=1.0.0 ||" (by decide)).2 ⟨[], hnothing, ?_, by decide⟩
  rintro ⟨clause, clauses, hlisted⟩
  have htokens : tokens [] = [] := rfl
  rw [htokens] at hlisted
  cases hlisted

end Selector

end Lading
