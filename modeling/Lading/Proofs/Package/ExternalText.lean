import Lading.Package.External
import Lading.Proofs.Results
import Lading.Proofs.Text.Parts
import Lading.Proofs.Text.Trim

namespace Lading.ExternalRequirement

open Text

structure IsName (s : List Char) : Prop where
  chars : ∀ c ∈ s, isNameChar c
  starts : s.head?.any Char.isAlphanum

def IsExtra (s : List Char) : Prop := s ≠ [] ∧ ∀ c ∈ s, isNameChar c

/-- An operator and a version, which may stand apart. -/
inductive IsClause : List Char → Prop
  | intro {operator blanks version : List Char} (hoperator : operator ∈ operators)
      (hblanks : IsBlanks blanks) (hne : version ≠ []) (hversion : ∀ c ∈ version, isVersionChar c) :
      IsClause (operator ++ blanks ++ version)

def Padded (word s : List Char) : Prop :=
  ∃ front back, IsBlanks front ∧ IsBlanks back ∧ s = front ++ word ++ back

def IsSpecifier (s : List Char) : Prop :=
  ∀ part ∈ s.splitOn ',', ∃ clause, IsClause clause ∧ Padded clause part

def SpellsExtra (part : List Char) (extra : String) : Prop :=
  IsExtra extra.toList ∧ Padded extra.toList part

/-- A list of extras between brackets, or nothing where there are none. -/
inductive ListsExtras : List String → List Char → Prop
  | none : ListsExtras [] []
  | list {extras : List String} {body : List Char}
      (hbody : List.Forall₂ SpellsExtra (body.splitOn ',') extras) :
      ListsExtras extras ('[' :: body ++ [']'])

structure ListsVersions (specifier : String) (s : List Char) : Prop where
  padded : Padded specifier.toList s
  trimmed : IsTrimmed specifier.toList
  clauses : specifier = "" ∨ IsSpecifier specifier.toList

/-- What stands behind a name: an optional list of extras and an optional specifier. -/
inductive Specifies : List String → String → List Char → Prop
  | intro {extras : List String} {specifier : String} {front list rest : List Char}
      (hfront : IsBlanks front) (hlist : ListsExtras extras list)
      (hrest : ListsVersions specifier rest) : Specifies extras specifier (front ++ list ++ rest)

/-- A character that neither goes on with a name nor starts a list. -/
def IsStop (c : Char) : Prop := isNameChar c = false ∧ c ≠ '['

section Words

variable {s word part : List Char} {c : Char}

theorem trim_eq_iff (hword : IsTrimmed word) : trim s = word ↔ Padded word s := by
  constructor
  · rintro rfl
    exact exists_blanks_trim s
  · rintro ⟨front, back, hfront, hback, rfl⟩
    exact hword.trim_append hfront hback

theorem not_isBlank_of_isNameChar (hc : isNameChar c) : isBlank c = false := by
  simp only [isNameChar, Bool.or_eq_true, beq_iff_eq] at hc
  rcases hc with ((hc | rfl) | rfl) | rfl
  · exact not_isBlank_of_isAlphanum c hc
  all_goals rfl

theorem not_isBlank_of_isVersionChar (hc : isVersionChar c) : isBlank c = false := by
  simp only [isVersionChar, Bool.or_eq_true, beq_iff_eq] at hc
  rcases hc with (((((hc | rfl) | rfl) | rfl) | rfl) | rfl) | rfl
  · exact not_isBlank_of_isAlphanum c hc
  all_goals rfl

theorem IsName.isTrimmed (h : IsName s) : IsTrimmed s :=
  isTrimmed_of_forall fun c hc ↦ not_isBlank_of_isNameChar (h.chars c hc)

theorem IsName.ne_nil (h : IsName s) : s ≠ [] := by
  rintro rfl
  cases h.starts

theorem IsExtra.isTrimmed (h : IsExtra s) : IsTrimmed s :=
  isTrimmed_of_forall fun c hc ↦ not_isBlank_of_isNameChar (h.2 c hc)

theorem extraFault?_eq_none_iff : extraFault? s = none ↔ IsExtra s := by
  simp [extraFault?, IsExtra]

theorem of_mem_operators {operator : List Char} (h : operator ∈ operators) :
    operator ≠ [] ∧ ∀ c ∈ operator, isBlank c = false ∧ IsStop c := by
  have hall : operators.all fun operator ↦ operator != [] &&
      operator.all fun c ↦ !isBlank c && !isNameChar c && c != '[' := by decide
  simpa [IsStop, and_assoc] using List.all_eq_true.1 hall operator h

theorem after?_operator {operator rest : List Char} (h : operator ∈ operators)
    (hrest : ∀ c ∈ rest.head?, c ≠ '=') :
    operators.findSome? (after? · (operator ++ rest)) = some rest := by
  simp only [operators, List.mem_cons, List.not_mem_nil, or_false] at h
  cases rest with
  | nil => rcases h with rfl | rfl | rfl | rfl | rfl | rfl | rfl | rfl <;> rfl
  | cons c rest =>
    have hc : '=' ≠ c := (hrest c rfl).symm
    rcases h with rfl | rfl | rfl | rfl | rfl | rfl | rfl | rfl <;> simp [operators, after?, hc]

theorem isTrimmed_operator {operator : List Char} (h : operator ∈ operators) :
    IsTrimmed operator :=
  isTrimmed_of_forall fun c hc ↦ ((of_mem_operators h).2 c hc).1

theorem isTrimmed_version (h : ∀ c ∈ word, isVersionChar c) : IsTrimmed word :=
  isTrimmed_of_forall fun c hc ↦ not_isBlank_of_isVersionChar (h c hc)

theorem IsClause.isTrimmed (h : IsClause s) : IsTrimmed s := by
  obtain ⟨hoperator, hblanks, hne, hversion⟩ := h
  exact (isTrimmed_operator hoperator).append (isTrimmed_version hversion)
    (of_mem_operators hoperator).1 hne

theorem isClause_of_clauseFault? (hs : IsTrimmed s) (h : clauseFault? s = none) : IsClause s := by
  unfold clauseFault? at h
  split at h
  · cases h
  · rename_i rest hrest
    dsimp only at h
    split at h
    · rename_i hversion
      obtain ⟨operator, hoperator, hafter⟩ := List.exists_of_findSome?_eq_some hrest
      obtain ⟨front, back, hfront, hback, hparts⟩ := exists_blanks_trim rest
      have htext : s = operator ++ front ++ trim rest ++ back := by
        rw [after?_eq_some_iff.1 hafter, List.append_assoc, List.append_assoc,
          ← List.append_assoc front, ← hparts]
      rw [htext] at hs
      rw [htext, hs.eq_nil_of_blanks hback, List.append_nil]
      exact .intro hoperator hfront hversion.1 (List.all_eq_true.1 hversion.2)
    · cases h

theorem clauseFault?_of_isClause (h : IsClause s) : clauseFault? s = none := by
  obtain ⟨hoperator, hblanks, hne, hversion⟩ := h
  rename_i operator blanks version
  -- What follows does not make a longer operator of this one.
  have hhead : ∀ c ∈ (blanks ++ version).head?, c ≠ '=' := by
    refine forall_head_append (fun c hc ↦ ?_) fun c hc ↦ ?_
    · rintro rfl
      exact absurd (hblanks _ (List.mem_of_mem_head? hc)) (by decide)
    · rintro rfl
      exact absurd (hversion _ (List.mem_of_mem_head? hc)) (by decide)
  have htrim : trim (blanks ++ version) = version := by
    simpa using (isTrimmed_version hversion).trim_append hblanks isBlanks_nil
  simp only [clauseFault?, List.append_assoc, after?_operator hoperator hhead, htrim]
  rw [if_pos ⟨hne, List.all_eq_true.2 hversion⟩]

theorem clauseFault?_trim_eq_none_iff : clauseFault? (trim part) = none ↔
    ∃ clause, IsClause clause ∧ Padded clause part := by
  constructor
  · intro h
    exact ⟨_, isClause_of_clauseFault? (isTrimmed_trim part) h, exists_blanks_trim part⟩
  · rintro ⟨clause, hclause, hpart⟩
    rw [(trim_eq_iff hclause.isTrimmed).2 hpart]
    exact clauseFault?_of_isClause hclause

end Words

section Lists

variable {s rest : List Char} {extras : List String} {specifier : String}

theorem findSome?_clauseFault?_eq_none_iff :
    ((s.splitOn ',').map trim).findSome? clauseFault? = none ↔ IsSpecifier s := by
  rw [List.findSome?_eq_none_iff, List.forall_mem_map]
  exact forall₂_congr fun part _ ↦ clauseFault?_trim_eq_none_iff

theorem checkSpecifier_eq_ok_iff : checkSpecifier s = .ok specifier ↔
    s = specifier.toList ∧ (specifier = "" ∨ IsSpecifier specifier.toList) := by
  constructor
  · intro h
    unfold checkSpecifier at h
    split at h
    · rename_i hs
      cases h
      exact ⟨hs, .inl rfl⟩
    · split at h
      · cases h
      · rename_i hfault
        cases h
        rw [String.toList_ofList]
        exact ⟨rfl, .inr (findSome?_clauseFault?_eq_none_iff.1 hfault)⟩
  · rintro ⟨rfl, hspecifier⟩
    by_cases hs : specifier = ""
    · rw [hs]
      rfl
    · have hfault := findSome?_clauseFault?_eq_none_iff.2 (hspecifier.resolve_left hs)
      simp only [checkSpecifier, String.toList_eq_nil_iff, hs, if_false, hfault,
        String.ofList_toList]

theorem checkSpecifier_trim_eq_ok_iff :
    checkSpecifier (trim s) = .ok specifier ↔ ListsVersions specifier s := by
  rw [checkSpecifier_eq_ok_iff]
  constructor
  · rintro ⟨htrim, hclauses⟩
    have htrimmed : IsTrimmed specifier.toList := htrim ▸ isTrimmed_trim s
    exact ⟨(trim_eq_iff htrimmed).1 htrim, htrimmed, hclauses⟩
  · rintro ⟨hpadded, htrimmed, hclauses⟩
    exact ⟨(trim_eq_iff htrimmed).2 hpadded, hclauses⟩

theorem spellsExtra_iff {part : List Char} {extra : String} : SpellsExtra part extra ↔
    extraFault? (trim part) = none ∧ String.ofList (trim part) = extra := by
  rw [extraFault?_eq_none_iff, SpellsExtra]
  constructor
  · rintro ⟨hextra, hpart⟩
    rw [(trim_eq_iff hextra.isTrimmed).2 hpart, String.ofList_toList]
    exact ⟨hextra, rfl⟩
  · rintro ⟨hextra, rfl⟩
    rw [String.toList_ofList]
    exact ⟨hextra, exists_blanks_trim part⟩

theorem listsExtras_iff {body : List Char} :
    List.Forall₂ SpellsExtra (body.splitOn ',') extras ↔
      ((body.splitOn ',').map trim).findSome? extraFault? = none ∧
        ((body.splitOn ',').map trim).map String.ofList = extras := by
  have hspells : SpellsExtra = fun part extra ↦
      extraFault? (trim part) = none ∧ String.ofList (trim part) = extra := by
    funext part extra
    exact propext spellsExtra_iff
  rw [hspells, List.findSome?_eq_none_iff, List.forall_mem_map, List.forall₂_and_left,
    ← List.forall₂_eq_eq_eq, List.forall₂_map_left_iff, List.forall₂_map_left_iff]

theorem bracket_notMem {body : List Char}
    (h : List.Forall₂ SpellsExtra (body.splitOn ',') extras) : ']' ∉ body := by
  intro hmem
  have hbody : joinWith ',' (body.splitOn ',') = body := List.intercalate_splitOn ','
  rw [← hbody] at hmem
  rcases mem_joinWith hmem with hcomma | ⟨part, hpart, hmem⟩
  · exact absurd hcomma (by decide)
  · obtain ⟨extra, hextra, front, back, hfront, hback, rfl⟩ := exists_of_forall₂ h hpart
    rw [List.mem_append, List.mem_append] at hmem
    rcases hmem with (hmem | hmem) | hmem
    · exact absurd (hfront _ hmem) (by decide)
    · exact absurd (hextra.2 _ hmem) (by decide)
    · exact absurd (hback _ hmem) (by decide)

theorem readExtras_of_head (hs : '[' ∉ s.head?) : readExtras s = .ok ([], s) := by
  unfold readExtras
  split
  · exact absurd rfl hs
  · rfl

theorem readExtras_bracket_eq_ok_iff :
    readExtras ('[' :: s) = .ok (extras, rest) ↔ ∃ list behind, '[' :: s = list ++ behind ∧
      list ≠ [] ∧ ListsExtras extras list ∧ trimStart behind = rest := by
  constructor
  · intro h
    rw [readExtras] at h
    split at h
    · cases h
    · rename_i body behind hcut
      dsimp only at h
      split at h
      · cases h
      · rename_i hfault
        cases h
        refine ⟨'[' :: body ++ [']'], behind, ?_, by simp, .list ?_, rfl⟩
        · simp [(cut_eq_some_iff.1 hcut).2]
        · exact listsExtras_iff.2 ⟨hfault, rfl⟩
  · rintro ⟨list, behind, hs, hne, hlist, rfl⟩
    cases hlist with
    | none => exact absurd rfl hne
    | @list _ body hbody =>
      have hbehind : s = body ++ ']' :: behind := by simpa using hs
      obtain ⟨hfault, hextras⟩ := listsExtras_iff.1 hbody
      simp only [readExtras, hbehind, cut_append (bracket_notMem hbody), hfault, hextras]

theorem isStop_of_isBlank {c : Char} (hc : isBlank c) : IsStop c := by
  refine ⟨?_, ?_⟩
  · by_contra hname
    have hblank := not_isBlank_of_isNameChar (by simpa using hname)
    rw [hc] at hblank
    cases hblank
  · rintro rfl
    cases hc

theorem IsClause.ne_nil {clause : List Char} (h : IsClause clause) : clause ≠ [] := by
  obtain ⟨hoperator, -, -, -⟩ := h
  simp [(of_mem_operators hoperator).1]

theorem IsClause.head {clause : List Char} (h : IsClause clause) :
    ∀ c ∈ clause.head?, IsStop c := by
  obtain ⟨hoperator, -, -, -⟩ := h
  obtain ⟨hne, hchars⟩ := of_mem_operators hoperator
  intro c hc
  rw [List.append_assoc, List.head?_append_of_ne_nil _ hne] at hc
  exact (hchars c (List.mem_of_mem_head? hc)).2

theorem Padded.head {word : List Char} (h : Padded word s)
    (hword : ∀ c ∈ word.head?, IsStop c) : ∀ c ∈ s.head?, IsStop c := by
  obtain ⟨front, back, hfront, hback, rfl⟩ := h
  refine forall_head_append (forall_head_append ?_ hword) ?_
  · exact fun c hc ↦ isStop_of_isBlank (hfront c (List.mem_of_mem_head? hc))
  · exact fun c hc ↦ isStop_of_isBlank (hback c (List.mem_of_mem_head? hc))

theorem IsSpecifier.exists_clause (h : IsSpecifier s) :
    ∃ front clause more, IsBlanks front ∧ IsClause clause ∧ s = front ++ clause ++ more := by
  have hjoin : joinWith ',' (s.splitOn ',') = s := List.intercalate_splitOn ','
  cases hparts : s.splitOn ',' with
  | nil => exact absurd hparts (List.splitOn_ne_nil ',' s)
  | cons part parts =>
    obtain ⟨clause, hclause, front, back, hfront, -, hpart⟩ := h part (hparts ▸ List.mem_cons_self)
    obtain ⟨more, hmore⟩ := joinWith_cons ',' part parts
    refine ⟨front, clause, back ++ more, hfront, hclause, ?_⟩
    rw [← hjoin, hparts, hmore, hpart, List.append_assoc]

theorem IsSpecifier.head (h : IsSpecifier s) : ∀ c ∈ s.head?, IsStop c := by
  obtain ⟨front, clause, more, hfront, hclause, rfl⟩ := h.exists_clause
  have hne : front ++ clause ≠ [] := by simp [hclause.ne_nil]
  rw [List.head?_append_of_ne_nil _ hne]
  exact forall_head_append (fun c hc ↦ isStop_of_isBlank (hfront c (List.mem_of_mem_head? hc)))
    hclause.head

/-- Where versions are asked for there is an operator. -/
theorem ListsVersions.exists_operator (h : ListsVersions specifier s) (hne : specifier ≠ "") :
    ∃ operator ∈ operators, operator <:+: s := by
  obtain ⟨front, back, -, -, rfl⟩ := h.padded
  obtain ⟨before, clause, more, -, hclause, hspecifier⟩ :=
    (h.clauses.resolve_left hne).exists_clause
  obtain ⟨hoperator, -, -, -⟩ := hclause
  rename_i operator blanks version
  refine ⟨operator, hoperator, front ++ before, blanks ++ version ++ more ++ back, ?_⟩
  rw [hspecifier]
  simp only [List.append_assoc]

theorem ListsVersions.head (h : ListsVersions specifier s) : ∀ c ∈ s.head?, IsStop c := by
  refine h.padded.head ?_
  rcases h.clauses with rfl | hclauses
  · simp
  · exact hclauses.head

theorem ListsVersions.of_trim_eq {t : List Char} (h : ListsVersions specifier s)
    (ht : trim t = trim s) : ListsVersions specifier t := by
  rw [← checkSpecifier_trim_eq_ok_iff, ht]
  exact checkSpecifier_trim_eq_ok_iff.2 h

theorem ListsVersions.specifies (h : ListsVersions specifier s) : Specifies [] specifier s :=
  .intro isBlanks_nil .none h

theorem Specifies.head (h : Specifies extras specifier s) :
    ∀ c ∈ s.head?, isNameChar c = false := by
  obtain ⟨hfront, hlist, hrest⟩ := h
  refine forall_head_append (forall_head_append ?_ ?_) fun c hc ↦ (hrest.head c hc).1
  · exact fun c hc ↦ (isStop_of_isBlank (hfront c (List.mem_of_mem_head? hc))).1
  · cases hlist with
    | none => simp
    | list =>
      rintro c ⟨⟩
      rfl

theorem specifies_iff : Specifies extras specifier s ↔
    ∃ rest, readExtras (trimStart s) = .ok (extras, rest) ∧
      checkSpecifier (trimEnd rest) = .ok specifier := by
  constructor
  · rintro ⟨hfront, hlist, hrest⟩
    rename_i front list rest
    cases hlist with
    | none =>
      have hhead := (hrest.of_trim_eq (trim_trimStart rest)).head
      have hread := readExtras_of_head fun hc ↦ (hhead _ hc).2 rfl
      rw [List.append_nil, trimStart_append_left hfront]
      exact ⟨_, hread, checkSpecifier_trim_eq_ok_iff.2 hrest⟩
    | @list _ body hbody =>
      have hstart : trimStart (front ++ ('[' :: body ++ [']']) ++ rest) =
          '[' :: (body ++ [']'] ++ rest) := by
        rw [List.append_assoc]
        exact trimStart_append hfront (by rintro c ⟨⟩; rfl)
      have hread := readExtras_bracket_eq_ok_iff.2 ⟨_, rest, rfl, by simp, .list hbody, rfl⟩
      rw [hstart]
      exact ⟨_, hread, checkSpecifier_trim_eq_ok_iff.2 hrest⟩
  · rintro ⟨rest, hread, hcheck⟩
    have hs : s = s.takeWhile isBlank ++ trimStart s := List.takeWhile_append_dropWhile.symm
    have hfront : IsBlanks (s.takeWhile isBlank) := fun c hc ↦ List.mem_takeWhile_imp hc
    by_cases hbracket : '[' ∈ (trimStart s).head?
    · obtain ⟨body, hbody⟩ := List.head?_eq_some_iff.1 hbracket
      rw [hbody] at hread hs
      obtain ⟨list, behind, hlist, -, hextras, rfl⟩ := readExtras_bracket_eq_ok_iff.1 hread
      rw [hs, hlist, ← List.append_assoc]
      exact .intro hfront hextras (checkSpecifier_trim_eq_ok_iff.1 hcheck)
    · rw [readExtras_of_head hbracket] at hread
      cases hread
      exact (checkSpecifier_trim_eq_ok_iff.1 hcheck).specifies

theorem Specifies.append_blanks {blanks : List Char} (h : Specifies extras specifier s)
    (hblanks : IsBlanks blanks) : Specifies extras specifier (s ++ blanks) := by
  obtain ⟨hfront, hlist, hrest⟩ := h
  rw [List.append_assoc]
  exact .intro hfront hlist (hrest.of_trim_eq (trim_append_blanks hblanks _))

theorem specifies_trimEnd (h : Specifies extras specifier s) :
    Specifies extras specifier (trimEnd s) := by
  obtain ⟨hfront, hlist, hrest⟩ := h
  rename_i front list rest
  cases hlist with
  | none =>
    have htrim : trim (trimEnd (front ++ rest)) = trim rest := by
      rw [trim_trimEnd, ← trim_trimStart, trimStart_append_left hfront, trim_trimStart]
    rw [List.append_nil]
    exact (hrest.of_trim_eq htrim).specifies
  | @list _ body hbody =>
    have hlast : ∀ c ∈ (front ++ ('[' :: body ++ [']'])).getLast?, isBlank c = false := by
      rw [← List.append_assoc, List.getLast?_concat]
      rintro c ⟨⟩
      rfl
    rw [trimEnd_append_of_last hlast]
    exact .intro hfront (.list hbody) (hrest.of_trim_eq (trim_trimEnd rest))

end Lists

section Reading

variable {s : List Char} {r : ExternalRequirement}

def IsSpelled (r : ExternalRequirement) (s : List Char) : Prop :=
  IsName r.name.toList ∧
    ∃ rest, s = r.name.toList ++ rest ∧ Specifies r.extras r.specifier rest

theorem read_eq_ok_iff : read s = .ok r ↔ r.IsSpelled s := by
  constructor
  · intro h
    unfold read at h
    dsimp only at h
    split at h
    · cases h
    · rename_i hstart
      obtain ⟨⟨extras, rest⟩, hextras, h⟩ := ok_of_bind h
      obtain ⟨specifier, hspecifier, h⟩ := ok_of_bind h
      cases h
      rw [IsSpelled, String.toList_ofList]
      refine ⟨⟨fun c hc ↦ List.mem_takeWhile_imp hc, ?_⟩, _,
        List.takeWhile_append_dropWhile.symm, specifies_iff.2 ⟨rest, hextras, hspecifier⟩⟩
      simpa using hstart
  · rintro ⟨hname, rest, rfl, hrest⟩
    have hrun := takeWhile_run hname.chars hrest.head
    have hstop := dropWhile_run hname.chars hrest.head
    obtain ⟨rest', hextras, hspecifier⟩ := specifies_iff.1 hrest
    simp only [read, hrun, hstop, hname.starts, Bool.not_true, Bool.false_eq_true, if_false,
      hextras, ok_bind, hspecifier, String.ofList_toList]
    rfl

/-- A text is read as a requirement exactly if it is one of its spellings, with blanks before it. -/
theorem parse_eq_ok_iff {input : String} : parse input = .ok r ↔
    ∃ front s, IsBlanks front ∧ input.toList = front ++ s ∧ r.IsSpelled s := by
  constructor
  · intro h
    obtain ⟨front, back, hfront, hback, hinput⟩ := exists_blanks_trim input.toList
    obtain ⟨hname, rest, hs, hrest⟩ := read_eq_ok_iff.1 (ok_of_mapError h)
    rw [hs, List.append_assoc, List.append_assoc] at hinput
    exact ⟨front, _, hfront, hinput, hname, _, rfl, hrest.append_blanks hback⟩
  · rintro ⟨front, s, hfront, hinput, hname, rest, rfl, hrest⟩
    have hhead : ∀ c ∈ (r.name.toList ++ rest).head?, isBlank c = false := by
      rw [List.head?_append_of_ne_nil _ hname.ne_nil]
      exact hname.isTrimmed.head
    have hread : read (trim input.toList) = .ok r := by
      rw [hinput, trim, trimStart_append hfront hhead,
        trimEnd_append_of_last hname.isTrimmed.last, read_eq_ok_iff]
      exact ⟨hname, _, rfl, specifies_trimEnd hrest⟩
    rw [parse, hread]
    rfl

end Reading

section Writing

variable {s : List Char} {r : ExternalRequirement} {extras : List String} {specifier : String}

theorem comma_notMem {word : List Char} (h : IsExtra word) : ',' ∉ word :=
  fun hmem ↦ absurd (h.2 _ hmem) (by decide)

theorem ListsExtras.text (h : ListsExtras extras s) : ListsExtras extras
    (if extras.isEmpty then [] else '[' :: joinWith ',' (extras.map String.toList) ++ [']']) := by
  cases h with
  | none => exact .none
  | @list _ body hbody =>
    have hextra : ∀ extra ∈ extras, IsExtra extra.toList := by
      intro extra hmem
      obtain ⟨part, hextra, -⟩ := exists_of_forall₂ hbody.flip hmem
      exact hextra
    have hne : extras ≠ [] := by
      rintro rfl
      exact List.splitOn_ne_nil ',' body (List.forall₂_nil_right_iff.1 hbody)
    have hsplit : (joinWith ',' (extras.map String.toList)).splitOn ',' =
        extras.map String.toList :=
      List.splitOn_intercalate ',' (List.forall_mem_map.2 fun extra hmem ↦
        comma_notMem (hextra extra hmem)) (by simpa using hne)
    rw [if_neg (by simpa using hne)]
    refine .list ?_
    rw [hsplit, List.forall₂_map_left_iff, List.forall₂_same]
    exact fun extra hmem ↦ ⟨hextra extra hmem, [], [], isBlanks_nil, isBlanks_nil, by simp⟩

theorem ListsVersions.text (h : ListsVersions specifier s) :
    ListsVersions specifier specifier.toList :=
  ⟨⟨[], [], isBlanks_nil, isBlanks_nil, by simp⟩, h.trimmed, h.clauses⟩

theorem IsSpelled.text (h : r.IsSpelled s) : r.IsSpelled r.text := by
  obtain ⟨hname, rest, -, hrest⟩ := h
  obtain ⟨-, hlist, hversions⟩ := hrest
  refine ⟨hname, _, List.append_assoc .., ?_⟩
  exact .intro isBlanks_nil hlist.text hversions.text

/-- A requirement that is read from any text is read from its own text, which has no blanks around
the name and the extras. -/
theorem parse_toString_of_parse (t : String) (r : ExternalRequirement) (h : parse t = .ok r) :
    parse (toString r) = .ok r := by
  obtain ⟨-, s, -, -, hspelled⟩ := parse_eq_ok_iff.1 h
  exact parse_eq_ok_iff.2 ⟨[], r.text, isBlanks_nil, String.toList_ofList, hspelled.text⟩

def requests : ExternalRequirement := ⟨"requests", ["security", "socks"], ">= 2.0 ,< 3"⟩

theorem parse_toString_of_parse_requests :
    parse "\t requests [ security,socks ] >= 2.0 ,< 3\n" = .ok requests ∧
      parse "requests[security,socks]>= 2.0 ,< 3" = .ok requests := by
  have hread : parse "\t requests [ security,socks ] >= 2.0 ,< 3\n" = .ok requests := by
    decide +kernel
  exact ⟨hread, parse_toString_of_parse _ requests hread⟩

end Writing

end Lading.ExternalRequirement
