import Lading.Proofs.Text.Trim
import Lading.Proofs.Version.Text
import Lading.Selector.Reader

namespace Lading

open Text

section Operators

variable {spelling rest : List Char} {operator : Operator}

theorem Operator.split_append (h : (spelling, operator) ∈ spellings)
    (hrest : ∀ c ∈ rest.head?, c ≠ '=') : split (spelling ++ rest) = some (operator, rest) := by
  cases rest with
  | nil =>
    simp only [spellings, List.mem_cons, Prod.mk.injEq, List.not_mem_nil, or_false] at h
    rcases h with ⟨rfl, rfl⟩ | ⟨rfl, rfl⟩ | ⟨rfl, rfl⟩ | ⟨rfl, rfl⟩ | ⟨rfl, rfl⟩ | ⟨rfl, rfl⟩ |
      ⟨rfl, rfl⟩ | ⟨rfl, rfl⟩ | ⟨rfl, rfl⟩ <;> rfl
  | cons c rest =>
    have hc : '=' ≠ c := (hrest c rfl).symm
    simp only [spellings, List.mem_cons, Prod.mk.injEq, List.not_mem_nil, or_false] at h
    rcases h with ⟨rfl, rfl⟩ | ⟨rfl, rfl⟩ | ⟨rfl, rfl⟩ | ⟨rfl, rfl⟩ | ⟨rfl, rfl⟩ | ⟨rfl, rfl⟩ |
      ⟨rfl, rfl⟩ | ⟨rfl, rfl⟩ | ⟨rfl, rfl⟩ <;> simp [split, spellings, after?, hc]

theorem Operator.not_isDigit (h : (spelling, operator) ∈ spellings) :
    ∀ c ∈ spelling, c.isDigit = false := by
  have hall : spellings.all (fun p ↦ p.1.all fun c ↦ !c.isDigit) := by decide
  simpa using List.all_eq_true.1 hall _ h

theorem Operator.split_digit {d : Char} (hd : d.isDigit) : split (d :: rest) = none := by
  rw [split, List.findSome?_eq_none_iff]
  rintro ⟨spelling, operator⟩ h
  cases spelling with
  | nil => cases operator <;> exact absurd h (by decide)
  | cons c spelling =>
    have hc : c ≠ d := by
      rintro rfl
      rw [Operator.not_isDigit h c List.mem_cons_self] at hd
      cases hd
    simp [after?, hc]

theorem Selector.isBareOperator_of_mem (h : (spelling, operator) ∈ Operator.spellings) :
    isBareOperator spelling :=
  List.any_eq_true.2 ⟨_, h, beq_self_eq_true _⟩

theorem Selector.not_isBareOperator {token : List Char} {d : Char} (hmem : d ∈ token)
    (hd : d.isDigit) : isBareOperator token = false := by
  rw [isBareOperator, List.any_eq_false]
  rintro ⟨spelling, operator⟩ h heq
  rw [← beq_iff_eq.1 heq] at hmem
  rw [Operator.not_isDigit h d hmem] at hd
  cases hd

end Operators

namespace Comparator

inductive Spelled (c : Comparator) : List Char → Prop
  | plain (hoperator : c.operator = .exact) (hversion : c.version.IsStrict) :
      Spelled c c.version.text
  | signed {spelling blanks : List Char} (hoperator : (spelling, c.operator) ∈ Operator.spellings)
      (hblanks : IsBlanks blanks) (hversion : c.version.IsStrict) :
      Spelled c (spelling ++ blanks ++ c.version.text)

theorem read_plain {v : Version} (hv : v.IsStrict) : read v.text = .ok ⟨.exact, v⟩ := by
  obtain ⟨d, more, htext, hd⟩ := v.text_eq_cons
  have hsplit : Operator.split v.text = none := by rw [htext, Operator.split_digit hd]
  simp [read, hsplit, Version.read_text hv]

theorem read_signed {spelling : List Char} {operator : Operator} {v : Version}
    (h : (spelling, operator) ∈ Operator.spellings) (hv : v.IsStrict) :
    read (spelling ++ v.text) = .ok ⟨operator, v⟩ := by
  have hhead : ∀ c ∈ v.text.head?, c ≠ '=' := by
    obtain ⟨d, more, htext, hd⟩ := v.text_eq_cons
    rw [htext]
    rintro c ⟨⟩ rfl
    cases hd
  simp [read, Operator.split_append h hhead, Version.read_text hv]

end Comparator

namespace Selector

/-- What stands between two clauses. -/
def IsSeparator (s : List Char) : Prop := s ≠ [] ∧ ∀ c ∈ s, isBlank c ∨ c = ','

section Tokens

variable {s t separator : List Char}

theorem tokens_cons {c : Char} (hc : isBlank c ∨ c = ',') : tokens (c :: t) = tokens t := by
  have hsplit : (isBlank c || c == ',') = true := by simpa using hc
  simp [tokens, List.splitOnP_cons_eq_if_modifyHead, hsplit]

theorem tokens_append_cons {c : Char} (hc : isBlank c ∨ c = ',') :
    tokens (s ++ c :: t) = tokens s ++ tokens t := by
  rw [tokens, List.splitOnP_append_cons, List.filter_append]
  · rfl
  · simpa using hc

theorem tokens_append_left (h : ∀ c ∈ separator, isBlank c ∨ c = ',') :
    tokens (separator ++ t) = tokens t := by
  induction separator with
  | nil => rfl
  | cons c separator ih =>
    rw [List.cons_append, tokens_cons (h c List.mem_cons_self)]
    exact ih fun d hd ↦ h d (List.mem_cons_of_mem _ hd)

theorem tokens_append (h : IsSeparator separator) :
    tokens (s ++ separator ++ t) = tokens s ++ tokens t := by
  obtain ⟨hne, hall⟩ := h
  cases separator with
  | nil => exact absurd rfl hne
  | cons c separator =>
    rw [List.append_assoc, List.cons_append, tokens_append_cons (hall c List.mem_cons_self),
      tokens_append_left fun d hd ↦ hall d (List.mem_cons_of_mem _ hd)]

theorem tokens_word (hne : s ≠ []) (hs : ∀ c ∈ s, isBlank c = false ∧ c ≠ ',') :
    tokens s = [s] := by
  have hsplit : ∀ c ∈ s, (isBlank c || c == ',') = false := by simpa using hs
  simp [tokens, List.splitOnP_eq_singleton hsplit, hne]

end Tokens

section Clauses

variable {c : Comparator} {token word spelling : List Char} {tokens : List (List Char)}
  {operator : Operator}

theorem readClauses_star : readClauses (['*'] :: tokens) = readClauses tokens := by
  rw [readClauses.eq_def]
  rfl

theorem readClauses_token {d : Char} (hmem : d ∈ token) (hd : d.isDigit)
    (hread : Comparator.read token = .ok c) :
    readClauses (token :: tokens) = (readClauses tokens).map (c :: ·) := by
  have hstar : token ≠ ['*'] := by
    rintro rfl
    rw [List.mem_singleton.1 hmem] at hd
    cases hd
  rw [readClauses.eq_def]
  simp only [hstar, if_false, not_isBareOperator hmem hd, Bool.false_eq_true, hread, ok_bind]
  cases readClauses tokens <;> rfl

theorem readClauses_operator (hoperator : (spelling, operator) ∈ Operator.spellings)
    (hread : Comparator.read (spelling ++ word) = .ok c) :
    readClauses (spelling :: word :: tokens) = (readClauses tokens).map (c :: ·) := by
  have hstar : spelling ≠ ['*'] := by
    rintro rfl
    cases operator <;> exact absurd hoperator (by decide)
  rw [readClauses.eq_def]
  simp only [hstar, if_false, isBareOperator_of_mem hoperator, if_true, hread, ok_bind]
  cases readClauses tokens <;> rfl

end Clauses

def isOperatorChar (c : Char) : Bool := ['<', '>', '=', '!', '~', '^'].contains c

def isClauseChar (c : Char) : Bool := isOperatorChar c || Version.isTextChar c

theorem isGraphic_of_isClauseChar {c : Char} (h : isClauseChar c) : isGraphic c := by
  rcases Bool.or_eq_true_iff.1 h with h | h
  · have hall : ['<', '>', '=', '!', '~', '^'].all isGraphic := by decide
    exact List.all_eq_true.1 hall c (List.contains_iff_mem.1 h)
  · exact Version.isGraphic_of_isTextChar h

theorem isClauseChar_text {v : Version} (hv : v.IsStrict) : ∀ c ∈ v.text, isClauseChar c :=
  fun c hc ↦ Bool.or_eq_true_iff.2 (.inr (hv.isTextChar_text c hc))

theorem ne_nil_of_mem_spellings {spelling : List Char} {operator : Operator}
    (h : (spelling, operator) ∈ Operator.spellings) : spelling ≠ [] := by
  have hall : ∀ p ∈ Operator.spellings, p.1 ≠ [] := by decide
  exact hall _ h

theorem isOperatorChar_of_mem {spelling : List Char} {operator : Operator}
    (h : (spelling, operator) ∈ Operator.spellings) : ∀ c ∈ spelling, isOperatorChar c := by
  have hall : Operator.spellings.all (fun p ↦ p.1.all isOperatorChar) := by decide
  exact List.all_eq_true.1 (List.all_eq_true.1 hall _ h)

theorem isClauseChar_operator {spelling : List Char} {operator : Operator}
    (h : (spelling, operator) ∈ Operator.spellings) : ∀ c ∈ spelling, isClauseChar c :=
  fun c hc ↦ Bool.or_eq_true_iff.2 (.inl (isOperatorChar_of_mem h c hc))

theorem tokens_clause {s : List Char} (hne : s ≠ []) (hs : ∀ c ∈ s, isClauseChar c) :
    tokens s = [s] := by
  refine tokens_word hne fun c hc ↦ ⟨?_, ?_⟩
  · exact not_isBlank_of_isGraphic (isGraphic_of_isClauseChar (hs c hc))
  · rintro rfl
    exact absurd (hs _ hc) (by decide)

def isGroupChar (c : Char) : Bool := isBlank c || c == ',' || c == '*' || isClauseChar c

def isGroupStart (c : Char) : Bool := c.isDigit || c == '*' || isOperatorChar c

/-- What the spellings of groups have in common. -/
structure IsPart (s : List Char) : Prop where
  ne_nil : s ≠ []
  trimmed : IsTrimmed s
  chars : ∀ c ∈ s, isGroupChar c
  starts : ∀ c ∈ s.head?, isGroupStart c

theorem isPart_of_isClauseChar {s : List Char} (hne : s ≠ []) (hs : ∀ c ∈ s, isClauseChar c)
    (hstarts : ∀ c ∈ s.head?, isGroupStart c) : IsPart s where
  ne_nil := hne
  trimmed := isTrimmed_of_forall fun c hc ↦
    not_isBlank_of_isGraphic (isGraphic_of_isClauseChar (hs c hc))
  chars c hc := Bool.or_eq_true_iff.2 (.inr (hs c hc))
  starts := hstarts

theorem isPart_star : IsPart ['*'] where
  ne_nil := by simp
  trimmed := isTrimmed_of_forall (eq_false_of_any rfl)
  chars := List.all_eq_true.1 rfl
  starts := by
    rintro c ⟨⟩
    rfl

theorem isPart_version {v : Version} (hv : v.IsStrict) : IsPart v.text := by
  obtain ⟨d, rest, htext, hd⟩ := v.text_eq_cons
  refine isPart_of_isClauseChar (by simp [htext]) (isClauseChar_text hv) ?_
  rw [htext]
  rintro c ⟨⟩
  simp [isGroupStart, hd]

theorem isPart_operator {spelling : List Char} {operator : Operator}
    (h : (spelling, operator) ∈ Operator.spellings) : IsPart spelling :=
  isPart_of_isClauseChar (ne_nil_of_mem_spellings h) (isClauseChar_operator h)
    fun c hc ↦ by simp [isGroupStart, isOperatorChar_of_mem h c (List.mem_of_mem_head? hc)]

theorem IsPart.append {s middle t : List Char} (hs : IsPart s)
    (hmiddle : ∀ c ∈ middle, isBlank c ∨ c = ',') (ht : IsPart t) : IsPart (s ++ middle ++ t) where
  ne_nil := by simp [hs.ne_nil]
  trimmed := hs.trimmed.append ht.trimmed hs.ne_nil ht.ne_nil
  chars c hc := by
    rcases List.mem_append.1 hc with hc | hc
    · rcases List.mem_append.1 hc with hc | hc
      · exact hs.chars c hc
      · rcases hmiddle c hc with hblank | rfl
        · simp [isGroupChar, hblank]
        · rfl
    · exact ht.chars c hc
  starts := by
    rw [List.append_assoc, List.head?_append_of_ne_nil _ hs.ne_nil]
    exact hs.starts

theorem IsPart.bar_notMem {s : List Char} (h : IsPart s) : '|' ∉ s :=
  fun hmem ↦ absurd (h.chars _ hmem) (by decide)

theorem bar_notMem_of_isBlanks {s : List Char} (hs : IsBlanks s) : '|' ∉ s :=
  fun hmem ↦ absurd (hs _ hmem) (by decide)

end Selector

namespace Comparator

open Selector

variable {c : Comparator} {text : List Char}

theorem Spelled.version (h : c.Spelled text) : c.version.IsStrict := by
  cases h with
  | plain _ hversion | signed _ _ hversion => exact hversion

/-- The tokens of a clause are read as it, whatever clauses follow. -/
theorem Spelled.readClauses (h : c.Spelled text) (more : List (List Char)) :
    readClauses (tokens text ++ more) = (readClauses more).map (c :: ·) := by
  obtain ⟨d, rest, htext, hd⟩ := c.version.text_eq_cons
  have hmem : d ∈ c.version.text := by simp [htext]
  have hne : c.version.text ≠ [] := by simp [htext]
  have hchars := isClauseChar_text h.version
  cases h with
  | plain hoperator hversion =>
    rw [tokens_clause hne hchars, List.singleton_append]
    refine readClauses_token hmem hd ?_
    rw [read_plain hversion, ← hoperator]
  | @signed spelling blanks hoperator hblanks hversion =>
    have hread := read_signed hoperator hversion
    have hspelling := isClauseChar_operator hoperator
    by_cases hnil : blanks = []
    · have hword : ∀ e ∈ spelling ++ c.version.text, isClauseChar e :=
        fun e he ↦ (List.mem_append.1 he).elim (hspelling e) (hchars e)
      rw [hnil, List.append_nil, tokens_clause (by simp [hne]) hword, List.singleton_append]
      exact readClauses_token (List.mem_append_right _ hmem) hd hread
    · have hne' := ne_nil_of_mem_spellings hoperator
      rw [tokens_append ⟨hnil, fun e he ↦ .inl (hblanks e he)⟩, tokens_clause hne' hspelling,
        tokens_clause hne hchars]
      exact readClauses_operator hoperator hread

theorem Spelled.isPart (h : c.Spelled text) : IsPart text := by
  have hversion := isPart_version h.version
  cases h with
  | plain => exact hversion
  | signed hoperator hblanks =>
    exact (isPart_operator hoperator).append (fun e he ↦ .inl (hblanks e he)) hversion

end Comparator

namespace Group

open Selector

/-- The spellings of a group, in which stars may stand before, between and after the clauses. -/
inductive Spelled : Group → List Char → Prop
  | star : Spelled [] ['*']
  | clause {c : Comparator} {text : List Char} (hclause : c.Spelled text) : Spelled [c] text
  | starBefore {group : Group} {separator text : List Char} (hseparator : IsSeparator separator)
      (hgroup : Spelled group text) : Spelled group (['*'] ++ separator ++ text)
  | clauseBefore {c : Comparator} {group : Group} {clause separator text : List Char}
      (hclause : c.Spelled clause) (hseparator : IsSeparator separator)
      (hgroup : Spelled group text) : Spelled (c :: group) (clause ++ separator ++ text)

variable {group : Group} {text : List Char}

theorem Spelled.readClauses (h : group.Spelled text) : readClauses (tokens text) = .ok group := by
  induction h with
  | star => rfl
  | clause hclause =>
    have hread := hclause.readClauses []
    rwa [List.append_nil] at hread
  | starBefore hseparator hgroup ih =>
    rw [tokens_append hseparator, ← ih]
    exact readClauses_star
  | clauseBefore hclause hseparator hgroup ih =>
    rw [tokens_append hseparator, hclause.readClauses, ih]
    rfl

theorem Spelled.isPart (h : group.Spelled text) : IsPart text := by
  induction h with
  | star => exact isPart_star
  | clause hclause => exact hclause.isPart
  | starBefore hseparator hgroup ih => exact isPart_star.append hseparator.2 ih
  | clauseBefore hclause hseparator hgroup ih =>
    exact hclause.isPart.append hseparator.2 ih

theorem Spelled.readGroup (h : group.Spelled text) {front back : List Char}
    (hfront : IsBlanks front) (hback : IsBlanks back) :
    readGroup (front ++ text ++ back) = .ok group := by
  have hpart := h.isPart
  simp only [Selector.readGroup, hpart.trimmed.trim_append hfront hback, hpart.ne_nil, if_false,
    h.readClauses]

end Group

namespace Selector

inductive Spelled : List Group → List Char → Prop
  | one {group : Group} {front text back : List Char} (hfront : IsBlanks front)
      (hgroup : group.Spelled text) (hback : IsBlanks back) :
      Spelled [group] (front ++ text ++ back)
  | more {group : Group} {groups : List Group} {front text back rest : List Char}
      (hfront : IsBlanks front) (hgroup : group.Spelled text) (hback : IsBlanks back)
      (hgroups : Spelled groups rest) :
      Spelled (group :: groups) (front ++ text ++ back ++ ['|', '|'] ++ rest)

variable {groups : List Group} {text : List Char}

theorem Spelled.ne_nil (h : Spelled groups text) : text ≠ [] := by
  cases h with
  | one _ hgroup | more _ hgroup => simp [hgroup.isPart.ne_nil]

theorem Spelled.readGroups (h : Spelled groups text) :
    (splitBars text).mapM readGroup = .ok groups := by
  have hbar {group : Group} {front text back : List Char} (hfront : IsBlanks front)
      (hgroup : group.Spelled text) (hback : IsBlanks back) : '|' ∉ front ++ text ++ back := by
    simp [bar_notMem_of_isBlanks hfront, hgroup.isPart.bar_notMem, bar_notMem_of_isBlanks hback]
  induction h with
  | one hfront hgroup hback =>
    rw [splitBars_of_notMem (hbar hfront hgroup hback), List.mapM_cons, List.mapM_nil,
      hgroup.readGroup hfront hback]
    rfl
  | @more group groups front text back rest hfront hgroup hback hgroups ih =>
    rw [List.append_assoc _ ['|', '|'], List.cons_append, List.singleton_append,
      splitBars_append (hbar hfront hgroup hback), List.mapM_cons,
      hgroup.readGroup hfront hback, ih]
    rfl

theorem Spelled.trimStart (h : Spelled groups text) : Spelled groups (trimStart text) := by
  cases h with
  | @one group front text back hfront hgroup hback =>
    have hhead := hgroup.isPart.trimmed.head
    rw [List.append_assoc, trimStart_append hfront]
    · exact .one isBlanks_nil hgroup hback
    · rwa [List.head?_append_of_ne_nil _ hgroup.isPart.ne_nil]
  | @more group groups front text back rest hfront hgroup hback hgroups =>
    have hhead := hgroup.isPart.trimmed.head
    simp only [List.append_assoc]
    rw [trimStart_append hfront]
    · simpa using Spelled.more isBlanks_nil hgroup hback hgroups
    · rwa [List.head?_append_of_ne_nil _ hgroup.isPart.ne_nil]

theorem Spelled.trimEnd (h : Spelled groups text) : Spelled groups (trimEnd text) := by
  induction h with
  | @one group front text back hfront hgroup hback =>
    rw [trimEnd_append _ hback]
    · simpa using Spelled.one hfront hgroup isBlanks_nil
    · rw [List.getLast?_append_of_ne_nil _ hgroup.isPart.ne_nil]
      exact hgroup.isPart.trimmed.last
  | more hfront hgroup hback hgroups ih =>
    rw [trimEnd_append_right ih.ne_nil]
    exact .more hfront hgroup hback ih

theorem Spelled.read (h : Spelled groups text) : read text = .ok ⟨groups⟩ := by
  have htrim : Spelled groups (trim text) := h.trimStart.trimEnd
  simp only [Selector.read, htrim.ne_nil, if_false, htrim.readGroups, ok_bind]
  rfl

theorem isGroupChar_of_isBlanks {s : List Char} (hs : IsBlanks s) : ∀ c ∈ s, isGroupChar c :=
  fun c hc ↦ by simp [isGroupChar, hs c hc]

/-- Between the bars, a spelling has characters of groups only. -/
theorem Spelled.chars (h : Spelled groups text) : ∀ c ∈ text, isGroupChar c ∨ c = '|' := by
  have hpart {group : Group} {front text back : List Char} (hfront : IsBlanks front)
      (hgroup : group.Spelled text) (hback : IsBlanks back) :
      ∀ c ∈ front ++ text ++ back, isGroupChar c := by
    intro c hc
    rw [List.mem_append, List.mem_append] at hc
    rcases hc with (hc | hc) | hc
    · exact isGroupChar_of_isBlanks hfront c hc
    · exact hgroup.isPart.chars c hc
    · exact isGroupChar_of_isBlanks hback c hc
  induction h with
  | one hfront hgroup hback => exact fun c hc ↦ .inl (hpart hfront hgroup hback c hc)
  | more hfront hgroup hback hgroups ih =>
    intro c hc
    rw [List.mem_append, List.mem_append] at hc
    rcases hc with (hc | hc) | hc
    · exact .inl (hpart hfront hgroup hback c hc)
    · exact .inr (by simpa using hc)
    · exact ih c hc

structure IsWritable (selector : Selector) : Prop where
  ne_nil : selector.alternatives ≠ []
  strict : ∀ group ∈ selector.alternatives, ∀ c ∈ group, c.version.IsStrict

theorem Spelled.cons_blank {c : Char} (hc : isBlank c) (h : Spelled groups text) :
    Spelled groups (c :: text) := by
  have hfront {front : List Char} (hblanks : IsBlanks front) : IsBlanks (c :: front) := by
    simpa [IsBlanks, hc] using hblanks
  cases h with
  | one hblanks hgroup hback => exact .one (hfront hblanks) hgroup hback
  | more hblanks hgroup hback hgroups => exact .more (hfront hblanks) hgroup hback hgroups

end Selector

theorem Comparator.spelled_text {c : Comparator} (hc : c.version.IsStrict) : c.Spelled c.text := by
  by_cases hexact : c.operator = .exact
  · have htext : c.text = c.version.text := by
      rw [text, hexact]
      rfl
    rw [htext]
    exact .plain hexact hc
  · have hmem : (c.operator.symbol.toList, c.operator) ∈ Operator.spellings := by
      revert hexact
      cases c.operator <;> decide
    simpa [text] using Comparator.Spelled.signed hmem isBlanks_nil hc

theorem Group.spelled_text {group : Group} (hstrict : ∀ c ∈ group, c.version.IsStrict) :
    group.Spelled group.text := by
  induction group with
  | nil => exact .star
  | cons c group ih =>
    have hc := Comparator.spelled_text (hstrict c List.mem_cons_self)
    cases group with
    | nil => simpa [Group.text, joinWith] using Group.Spelled.clause hc
    | cons next group =>
      have hrest := ih fun d hd ↦ hstrict d (List.mem_cons_of_mem _ hd)
      have htext : Group.text (c :: next :: group) =
          c.text ++ [' '] ++ Group.text (next :: group) := by
        simp [Group.text, joinWith]
      rw [htext]
      exact .clauseBefore hc ⟨by simp, by simp [isBlank]⟩ hrest

theorem Comparator.strict_of_read {token : List Char} {c : Comparator} (h : read token = .ok c) :
    c.version.IsStrict := by
  simp only [read] at h
  split at h
  · rename_i version hversion
    cases h
    exact (Version.read_eq_ok_iff.1 hversion).1
  · cases h

namespace Selector

theorem spelled_text {selector : Selector} (h : selector.IsWritable) :
    Spelled selector.alternatives selector.text := by
  obtain ⟨groups⟩ := selector
  obtain ⟨hne, hstrict⟩ := h
  dsimp only at hne hstrict
  induction groups with
  | nil => exact absurd rfl hne
  | cons group groups ih =>
    have hgroup := Group.spelled_text (hstrict group List.mem_cons_self)
    cases groups with
    | nil => simpa [text] using Spelled.one isBlanks_nil hgroup isBlanks_nil
    | cons next groups =>
      have hrest := ih (by simp) fun g hg ↦ hstrict g (List.mem_cons_of_mem _ hg)
      have hblank : IsBlanks [' '] := by decide
      have hspaced := Spelled.more isBlanks_nil hgroup hblank (hrest.cons_blank (c := ' ') rfl)
      simpa [text] using hspaced

/-- Like a group, the text of a selector starts with an operator, a digit or a star, and it has no
blanks at its ends. -/
theorem starts_text {selector : Selector} (h : selector.IsWritable) : selector.text ≠ [] ∧
    IsTrimmed selector.text ∧ ∀ c ∈ selector.text.head?, isGroupStart c := by
  obtain ⟨groups⟩ := selector
  obtain ⟨hne, hstrict⟩ := h
  dsimp only at hne hstrict
  induction groups with
  | nil => exact absurd rfl hne
  | cons group groups ih =>
    have hgroup := (Group.spelled_text (hstrict group List.mem_cons_self)).isPart
    cases groups with
    | nil => exact ⟨by simpa [text] using hgroup.ne_nil, by simpa [text] using hgroup.trimmed,
        by simpa [text] using hgroup.starts⟩
    | cons next groups =>
      obtain ⟨hne', htrimmed, -⟩ :=
        ih (by simp) fun g hg ↦ hstrict g (List.mem_cons_of_mem _ hg)
      have htext : text ⟨group :: next :: groups⟩ =
          group.text ++ [' ', '|', '|', ' '] ++ text ⟨next :: groups⟩ := by simp [text]
      rw [htext]
      refine ⟨by simp, hgroup.trimmed.append htrimmed hgroup.ne_nil hne', ?_⟩
      rw [List.append_assoc, List.head?_append_of_ne_nil _ hgroup.ne_nil]
      exact hgroup.starts

theorem notMem_head_text {selector : Selector} (h : selector.IsWritable) {c : Char}
    (hc : isGroupStart c = false) : c ∉ selector.text.head? := by
  intro hmem
  rw [(starts_text h).2.2 c hmem] at hc
  cases hc

theorem notMem_text {selector : Selector} (h : selector.IsWritable) {c : Char}
    (hc : isGroupChar c = false) (hbar : c ≠ '|') : c ∉ selector.text := by
  intro hmem
  rcases (spelled_text h).chars c hmem with hchar | hchar
  · rw [hchar] at hc
    cases hc
  · exact hbar hchar

theorem strict_of_readClauses {tokens : List (List Char)} {group : Group}
    (h : readClauses tokens = .ok group) : ∀ c ∈ group, c.version.IsStrict := by
  fun_induction readClauses tokens generalizing group with
  | case1 =>
    cases h
    simp
  | case2 tokens ih => exact ih h
  | case3 => cases h
  | case4 token hstar hbare version tokens ih =>
    obtain ⟨c, hc, h⟩ := ok_of_bind h
    obtain ⟨clauses, hclauses, h⟩ := ok_of_bind h
    cases h
    exact List.forall_mem_cons.2 ⟨Comparator.strict_of_read hc, ih hclauses⟩
  | case5 token tokens hstar hbare ih =>
    obtain ⟨c, hc, h⟩ := ok_of_bind h
    obtain ⟨clauses, hclauses, h⟩ := ok_of_bind h
    cases h
    exact List.forall_mem_cons.2 ⟨Comparator.strict_of_read hc, ih hclauses⟩

theorem isWritable_of_read {s : List Char} {selector : Selector} (h : read s = .ok selector) :
    selector.IsWritable := by
  simp only [read] at h
  split at h
  · cases h
  · obtain ⟨groups, hgroups, h⟩ := ok_of_bind h
    cases h
    obtain ⟨hlength, hmem⟩ := of_mapM_eq_ok hgroups
    constructor
    · rw [← List.length_pos_iff, hlength, List.length_pos_iff]
      exact splitBars_ne_nil _
    · intro group hgroup
      obtain ⟨part, -, hpart⟩ := hmem group hgroup
      simp only [readGroup] at hpart
      split at hpart
      · cases hpart
      · exact strict_of_readClauses hpart

theorem read_text {selector : Selector} (h : selector.IsWritable) :
    read selector.text = .ok selector :=
  (spelled_text h).read

theorem isWritable_any : any.IsWritable := ⟨by simp [any], by simp [any]⟩

theorem isWritable_exact {v : Version} (hv : v.IsStrict) : (exact v).IsWritable :=
  ⟨by simp [exact], by simpa [exact] using hv⟩

/-- However a selector is spelled, it is the one that is read. The text of a selector that was read,
of the one that takes every version and of the one of a single version is among its spellings. -/
theorem parse_spelled :
    (∀ groups text, Spelled groups text → parse (String.ofList text) = .ok ⟨groups⟩) ∧
      ∀ selector : Selector, (∃ input, parse input = .ok selector) ∨ selector = any ∨
        (∃ v : Version, v.IsStrict ∧ selector = exact v) →
          Spelled selector.alternatives selector.text ∧
            parse (toString selector) = .ok selector := by
  have hparse {groups : List Group} {text : List Char} (h : Spelled groups text) :
      parse (String.ofList text) = .ok ⟨groups⟩ := by
    rw [parse, String.toList_ofList, h.read]
    rfl
  refine ⟨fun groups text h ↦ hparse h, ?_⟩
  intro selector h
  have hwritable : selector.IsWritable := by
    rcases h with ⟨input, h⟩ | rfl | ⟨v, hv, rfl⟩
    · exact isWritable_of_read (ok_of_mapError h)
    · exact isWritable_any
    · exact isWritable_exact hv
  have hspelled := spelled_text hwritable
  exact ⟨hspelled, hparse hspelled⟩

def mixed : List Group :=
  [[⟨.greaterEq, ⟨1, 0, 0, ["rc", "1"], []⟩⟩], [⟨.exact, ⟨2, 0, 0, [], ["b"]⟩⟩], []]

theorem spelled_mixed : Spelled mixed "* , >=  1.0.0-rc.1,* || == 2.0.0+b ||*".toList := by
  have hrc : Version.IsStrict ⟨1, 0, 0, ["rc", "1"], []⟩ :=
    (Version.eq_text_of_read (s := "1.0.0-rc.1".toList) rfl).1
  have hb : Version.IsStrict ⟨2, 0, 0, [], ["b"]⟩ :=
    (Version.eq_text_of_read (s := "2.0.0+b".toList) rfl).1
  have hblank : IsBlanks [' '] := by decide
  have hblanks : IsBlanks [' ', ' '] := by decide
  have hcomma : IsSeparator [','] := by simp [IsSeparator]
  have hcommas : IsSeparator [' ', ',', ' '] := by simp [IsSeparator, isBlank]
  have hlater : (['>', '='], Operator.greaterEq) ∈ Operator.spellings := by decide
  have hequal : (['=', '='], Operator.exact) ∈ Operator.spellings := by decide
  have hclause := Comparator.Spelled.signed (c := ⟨.greaterEq, _⟩) hlater hblanks hrc
  have hfirst := Group.Spelled.starBefore hcommas (.clauseBefore hclause hcomma .star)
  have hsecond := Group.Spelled.clause (.signed (c := ⟨.exact, _⟩) hequal hblank hb)
  exact .more isBlanks_nil hfirst hblank
    (.more hblank hsecond hblank (.one isBlanks_nil .star isBlanks_nil))

theorem parse_spelled_mixed :
    Spelled mixed "* , >=  1.0.0-rc.1,* || == 2.0.0+b ||*".toList ∧
      parse "* , >=  1.0.0-rc.1,* || == 2.0.0+b ||*" = .ok ⟨mixed⟩ ∧
      parse ">=1.0.0-rc.1 || 2.0.0+b || *" = .ok ⟨mixed⟩ := by
  have hparse := parse_spelled.1 mixed _ spelled_mixed
  rw [String.ofList_toList] at hparse
  exact ⟨spelled_mixed, hparse, (parse_spelled.2 ⟨mixed⟩ (.inl ⟨_, hparse⟩)).2⟩

end Selector

end Lading
