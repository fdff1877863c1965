import Lading.Proofs.Predicate.Grammar

namespace Lading

open Text

namespace Lexer

variable {accepted : List TokenKind} {l l' m : Lexer} {t : Token}

def extent (l : Lexer) : Nat := l.offset + byteLength l.rest

theorem extent_of_append {s : List Char} (h : l.rest = s ++ m.rest)
    (hoffset : m.offset = l.offset + byteLength s) : m.extent = l.extent := by
  rw [extent, extent, h, hoffset, byteLength_append, Nat.add_assoc]

theorem extent_skipBlanks (l : Lexer) : l.skipBlanks.extent = l.extent :=
  extent_of_append (List.takeWhile_append_dropWhile.symm) rfl

theorem extent_next (h : l.next accepted = (some t, m)) : m.extent = l.extent := by
  obtain ⟨lexeme, -, hlexeme, -, rfl⟩ := next_eq_some h
  obtain ⟨rest, hrest⟩ := lexeme?_isStart hlexeme
  rw [← l.extent_skipBlanks]
  refine extent_of_append ?_ rfl
  simp only [skipBlanks, advance, ← hrest, List.drop_left]

theorem extent_next_none (h : l.next accepted = (none, m)) : m.extent = l.extent := by
  rw [eq_skipBlanks_of_next h, extent_skipBlanks]

/-- The second lexer has more to read, behind a blank. -/
def Continues (l l' : Lexer) : Prop :=
  ∃ more, (∀ c ∈ more.head?, isBlank c) ∧ l'.rest = l.rest ++ more

theorem visible_eq_nil_iff : l.visible = [] ↔ IsBlanks l.rest := List.dropWhile_eq_nil_iff

theorem Continues.exists_visible (h : l.Continues l') (hl : ¬ IsBlanks l.rest) :
    ∃ more, (∀ c ∈ more.head?, isBlank c) ∧ l'.visible = l.visible ++ more := by
  obtain ⟨more, hmore, hrest⟩ := h
  have hne : l.rest.dropWhile isBlank ≠ [] := visible_eq_nil_iff.not.2 hl
  refine ⟨more, hmore, ?_⟩
  rw [visible, visible, trimStart, hrest, List.dropWhile_append]
  simp [hne, trimStart]

theorem Continues.first?_visible (h : l.Continues l') (hl : ¬ IsBlanks l.rest)
    (accepted : List TokenKind) : first? accepted l'.visible = first? accepted l.visible := by
  obtain ⟨more, hmore, hvisible⟩ := h.exists_visible hl
  rw [hvisible, first?_append_blank accepted hmore]
  intro hnil
  exact absurd (visible_eq_nil_iff.1 hnil) hl

theorem not_isBlanks_of_next (hnext : l.next accepted = (some t, m))
    (haccepted : .endOfInput ∉ accepted) : ¬ IsBlanks l.rest := by
  obtain ⟨lexeme, hkind, hlexeme, -, -⟩ := next_eq_some hnext
  have hne := lexeme?_ne_nil hlexeme fun heq ↦ haccepted (heq ▸ hkind)
  rw [← visible_eq_nil_iff]
  intro hvisible
  exact hne (List.prefix_nil.1 (hvisible ▸ lexeme?_isStart hlexeme))

theorem not_isBlanks_of_next_none (hnext : l.next accepted = (none, m))
    (hm : ¬ IsBlanks m.rest) : ¬ IsBlanks l.rest := by
  obtain ⟨blanks, hblanks, hl⟩ := next_none_splits hnext
  rw [hl]
  exact fun h ↦ hm fun c hc ↦ h c (List.mem_append_right _ hc)

theorem Continues.simulation : Simulation Continues fun l ↦ ¬ IsBlanks l.rest where
  found {l l' m accepted t} h hnext haccepted := by
    have hl := not_isBlanks_of_next hnext haccepted
    obtain ⟨more, hmore, hvisible⟩ := h.exists_visible hl
    obtain ⟨lexeme, t', hfirst, rfl, hkind, htext, hnext'⟩ :=
      next_some_congr (h.first?_visible hl accepted) hnext
    refine ⟨t', _, hnext', hkind, htext, more, hmore, ?_⟩
    simp only [advance, skipBlanks]
    rw [hvisible, List.drop_append_of_le_length (first?_isStart hfirst).length_le]
  missing {l l' m accepted} h hnext hm := by
    have hl := not_isBlanks_of_next_none hnext hm
    refine ⟨_, next_none_congr (h.first?_visible hl accepted) hnext, ?_⟩
    rw [eq_skipBlanks_of_next hnext]
    exact h.exists_visible hl
  live := not_isBlanks_of_next

end Lexer

namespace Predicate

open Lexer

variable {l l' l₁ l₂ l₃ : Lexer} {accepted : List TokenKind} {kind : TokenKind} {p : Predicate}
  {m : Mismatch}

theorem ofSymbol?_operator {operator : Token}
    (h : l.next [.connective, .comparison] = (some operator, l'))
    (hkind : operator.kind ≠ .connective) : Comparison.ofSymbol? operator.text ≠ none := by
  obtain ⟨s, comparison, hs, hl, htext⟩ := exists_comparison h hkind
  rw [htext, Comparison.ofSymbol?_symbol]
  exact Option.some_ne_none comparison

theorem extent_of_readExpression (h : readExpression l = .ok (p, l')) : l'.extent = l.extent := by
  fun_induction readExpression l generalizing p l' with
  | case1 | case2 | case3 | case6 | case8 | case9 => cases h
  | case4 l token l₁ hopen hkind inner l₂ hinner t l₃ hclose ih =>
    cases h
    rw [extent_next hclose, ih hinner, extent_next hopen]
  | case5 l token l₁ hname hkind l₂ hnone =>
    cases h
    rw [extent_next_none hnone, extent_next hname]
  | case7 l token l₁ hname hkind operator l₂ hoperator hconnective connective right l₃ hright =>
    rename_i ih
    cases h
    rw [ih hright, extent_next hoperator, extent_next hname]
  | case10 l token l₁ hname hkind operator l₂ hoperator hconnective comparison hsymbol literal l₃
      hliteral =>
    cases h
    rw [extent_next hliteral, extent_next hoperator, extent_next hname]

/-- A text that is read from `l` on stops at a mismatch: the text before it, and a blank, is the
start of a predicate. -/
structure Mismatch.Stops (m : Mismatch) (l : Lexer) : Prop where
  extent : m.offset + byteLength m.rest = l.extent
  visible : ∀ c ∈ m.rest.head?, isBlank c = false
  completes : ∃ before more p, l.rest = before ++ m.rest ∧ Denotes (before ++ [' '] ++ more) p

section Stops

theorem mismatch_facts (kind : TokenKind) (h : l.next accepted = (none, l₁)) :
    (mismatch kind l₁).offset + byteLength (mismatch kind l₁).rest = l.extent ∧
      (∀ c ∈ (mismatch kind l₁).rest.head?, isBlank c = false) ∧
      ∃ blanks, IsBlanks blanks ∧ l.rest = blanks ++ (mismatch kind l₁).rest := by
  refine ⟨?_, head_dropWhile _ _, ?_⟩
  · exact l₁.extent_skipBlanks.trans (extent_next_none h)
  · obtain ⟨blanks, hblanks, hl⟩ := next_none_splits h
    obtain ⟨blanks₁, hblanks₁, hl₁⟩ := l₁.exists_blanks
    refine ⟨blanks ++ blanks₁, hblanks.append hblanks₁, ?_⟩
    rw [hl, hl₁, List.append_assoc]
    rfl

theorem isBlanks_blank : IsBlanks [' '] := by decide

theorem stops_name (h : l.next accepted = (none, l₁)) : (mismatch kind l₁).Stops l := by
  obtain ⟨hextent, hvisible, blanks, hblanks, hl⟩ := mismatch_facts kind h
  have hname : IsRun Char.isAlphanum (blanks ++ [' ']) ['a'] [] :=
    ⟨by simp, List.forall_mem_singleton.2 rfl, by simp, by simp⟩
  have hdenotes := Denotes.atom (hblanks.append isBlanks_blank) isBlanks_nil hname
  rw [List.append_nil] at hdenotes
  exact ⟨hextent, hvisible, blanks, ['a'], _, hl, hdenotes⟩

theorem stops_literal {name operator : Token} (hname : l.next [.name, .openParen] = (some name, l₁))
    (hkind : name.kind ≠ .openParen)
    (hoperator : l₁.next [.connective, .comparison] = (some operator, l₂))
    (hcomparison : operator.kind ≠ .connective) (hnone : l₂.next accepted = (none, l₃)) :
    (mismatch kind l₃).Stops l := by
  obtain ⟨s, name, hs, hl, -, hrun⟩ := exists_name hname hkind
  obtain ⟨s₁, comparison, hs₁, hl₁, -⟩ := exists_comparison hoperator hcomparison
  obtain ⟨hextent, hvisible, blanks, hblanks, hl₂⟩ := mismatch_facts kind hnone
  have hs₂ := hblanks.append isBlanks_blank
  have hsymbol : s₁ ++ comparison.symbol.toList ≠ [] := by
    cases comparison <;> simp [Comparison.symbol]
  rw [hl₁] at hrun
  have hrun' := (hrun.of_append l₂.rest).append hsymbol (blanks ++ [' '] ++ ['0'] ++ [])
  have hliteral : IsRun isLiteralChar
      (s ++ name ++ s₁ ++ comparison.symbol.toList ++ (blanks ++ [' '])) ['0'] [] :=
    ⟨by simp, List.forall_mem_singleton.2 rfl, not_isLiteralChar_of_getLast? hs₂, by simp⟩
  have hdenotes := Denotes.compared hs hs₁ hs₂ isBlanks_nil (by simpa using hrun') hliteral
  refine ⟨?_, hvisible, s ++ name ++ s₁ ++ comparison.symbol.toList ++ blanks, ['0'], _, ?_,
    by simpa using hdenotes⟩
  · rw [hextent, extent_next hoperator, extent_next hname]
  · simp [hl, hl₁, hl₂]

theorem stops_closeParen {token : Token} {inner : Predicate}
    (hopen : l.next [.name, .openParen] = (some token, l₁)) (hkind : token.kind = .openParen)
    (hinner : readExpression l₁ = .ok (inner, l₂)) (hnone : l₂.next accepted = (none, l₃)) :
    (mismatch kind l₃).Stops l := by
  obtain ⟨s, hs, hl⟩ := exists_openParen hopen hkind
  obtain ⟨text, hl₁, htext⟩ := denotes_of_readExpression hinner
  obtain ⟨hextent, hvisible, blanks, hblanks, hl₂⟩ := mismatch_facts kind hnone
  have hdenotes := Denotes.parenthesized hs isBlanks_nil
    (htext.append_blanks (hblanks.append isBlanks_blank))
  refine ⟨?_, hvisible, s ++ ['('] ++ text ++ blanks, [')'], inner, ?_, by simpa using hdenotes⟩
  · rw [hextent, extent_of_readExpression hinner, extent_next hopen]
  · simp [hl, hl₁, hl₂]

theorem Mismatch.Stops.of_openParen {token : Token} (h : m.Stops l₁)
    (hopen : l.next [.name, .openParen] = (some token, l₁)) (hkind : token.kind = .openParen) :
    m.Stops l := by
  obtain ⟨hextent, hvisible, before, more, p, hl₁, hp⟩ := h
  obtain ⟨s, hs, hl⟩ := exists_openParen hopen hkind
  have hdenotes := Denotes.parenthesized hs isBlanks_nil hp
  refine ⟨hextent.trans (extent_next hopen), hvisible, s ++ ['('] ++ before, more ++ [')'], p, ?_,
    by simpa using hdenotes⟩
  simp [hl, hl₁]

theorem Mismatch.Stops.of_connective {name operator : Token} (h : m.Stops l₂)
    (hname : l.next [.name, .openParen] = (some name, l₁)) (hkind : name.kind ≠ .openParen)
    (hoperator : l₁.next [.connective, .comparison] = (some operator, l₂))
    (hconnective : operator.kind = .connective) : m.Stops l := by
  obtain ⟨hextent, hvisible, before, more, p, hl₂, hp⟩ := h
  obtain ⟨s, name, hs, hl, -, hrun⟩ := exists_name hname hkind
  obtain ⟨s₁, connective, hs₁, hl₁, -, hends⟩ := exists_connective hoperator hconnective
  -- Where nothing was read behind the word, the blank keeps it apart from what completes it.
  have hends' : ∀ c ∈ (before ++ [' '] ++ more).head?, c.isAlphanum = false := by
    cases before with
    | nil => simp
    | cons c before =>
      rw [hl₂] at hends
      exact hends
  have hsymbol : s₁ ++ connective.symbol.toList ≠ [] := by
    cases connective <;> simp [Connective.symbol]
  rw [hl₁] at hrun
  have hrun' := (hrun.of_append l₂.rest).append hsymbol (before ++ [' '] ++ more)
  have hdenotes := Denotes.joined hs hs₁ hrun' hends' hp
  refine ⟨?_, hvisible, s ++ name ++ s₁ ++ connective.symbol.toList ++ before, more, _, ?_,
    by simpa using hdenotes⟩
  · rw [hextent, extent_next hoperator, extent_next hname]
  · simp [hl, hl₁, hl₂]

theorem stops_of_readExpression (h : readExpression l = .error m) : m.Stops l := by
  fun_induction readExpression l generalizing m with
  | case4 | case5 | case7 | case10 => cases h
  | case1 l l₁ hnone =>
    cases h
    exact stops_name hnone
  | case2 l token l₁ hopen hkind m' hinner ih =>
    cases h
    exact (ih hinner).of_openParen hopen hkind
  | case3 l token l₁ hopen hkind inner l₂ hinner l₃ hnone ih =>
    cases h
    exact stops_closeParen hopen hkind hinner hnone
  | case6 l token l₁ hname hkind operator l₂ hoperator hconnective m' hright ih =>
    cases h
    exact (ih hright).of_connective hname hkind hoperator hconnective
  | case8 l token l₁ hname hkind operator l₂ hoperator hcomparison hsymbol =>
    exact absurd hsymbol (ofSymbol?_operator hoperator hcomparison)
  | case9 l token l₁ hname hkind operator l₂ hoperator hcomparison comparison hsymbol l₃ hnone =>
    cases h
    exact stops_literal hname hkind hoperator hcomparison hnone

theorem stops_of_read {s : List Char} (h : read s = .error m) : m.Stops (.start s) := by
  unfold read at h
  split at h
  · rename_i m' hread
    cases h
    exact stops_of_readExpression hread
  · rename_i p l hread
    obtain ⟨text, hs, hp⟩ := denotes_of_readExpression hread
    split at h
    · rename_i l₁ hnone
      cases h
      obtain ⟨hextent, hvisible, blanks, hblanks, hl⟩ := mismatch_facts .endOfInput hnone
      have hdenotes := hp.append_blanks (hblanks.append isBlanks_blank)
      refine ⟨?_, hvisible, text ++ blanks, [], p, ?_, by simpa using hdenotes⟩
      · rw [hextent, extent_of_readExpression hread]
      · rw [hs, hl, List.append_assoc]
    · cases h

end Stops

theorem next_none_continued (h : l.Continues l') (hnext : l.next accepted = (none, l₁))
    (hm : (mismatch kind l₁).rest ≠ []) : ∃ l₁', l'.next accepted = (none, l₁') := by
  have hvisible : ¬ IsBlanks l₁.rest := visible_eq_nil_iff.not.1 hm
  obtain ⟨l₁', hnext', -⟩ := Continues.simulation.missing h hnext hvisible
  exact ⟨l₁', hnext'⟩

/-- Where a text cannot go on, more text behind a blank is of no use. -/
theorem readExpression_continued (h : l.Continues l') (hread : readExpression l = .error m)
    (hm : m.rest ≠ []) : ∃ m', readExpression l' = .error m' := by
  have hsim := Continues.simulation
  fun_induction readExpression l generalizing l' m with
  | case4 | case5 | case7 | case10 => cases hread
  | case1 l l₁ hnone =>
    cases hread
    obtain ⟨l₁', hnone'⟩ := next_none_continued h hnone hm
    refine ⟨mismatch .name l₁', ?_⟩
    rw [readExpression_eq]
    simp only [hnone']
  | case2 l token l₁ hopen hkind m' hinner ih =>
    cases hread
    obtain ⟨token', l₁', hopen', hkind', -, h₁⟩ := hsim.found h hopen (by decide)
    obtain ⟨m'', hinner'⟩ := ih h₁ hinner hm
    refine ⟨m'', ?_⟩
    rw [readExpression_eq]
    simp only [hopen', hkind', hkind, if_true, hinner']
  | case3 l token l₁ hopen hkind inner l₂ hinner l₃ hnone ih =>
    cases hread
    obtain ⟨token', l₁', hopen', hkind', -, h₁⟩ := hsim.found h hopen (by decide)
    have hl₂ := not_isBlanks_of_next_none hnone (visible_eq_nil_iff.not.1 hm)
    obtain ⟨l₂', hinner', h₂⟩ := readExpression_simulated hsim h₁ hinner hl₂
    obtain ⟨l₃', hnone'⟩ := next_none_continued h₂ hnone hm
    refine ⟨mismatch .closeParen l₃', ?_⟩
    rw [readExpression_eq]
    simp only [hopen', hkind', hkind, if_true, hinner', hnone']
  | case6 l token l₁ hname hkind operator l₂ hoperator hconnective m' hright ih =>
    cases hread
    obtain ⟨token', l₁', hname', hkind', -, h₁⟩ := hsim.found h hname (by decide)
    obtain ⟨operator', l₂', hoperator', hconnective', -, h₂⟩ :=
      hsim.found h₁ hoperator (by decide)
    obtain ⟨m'', hright'⟩ := ih h₂ hright hm
    refine ⟨m'', ?_⟩
    rw [readExpression_eq]
    simp only [hname', hkind', hkind, if_false, hoperator', hconnective', hconnective, if_true,
      hright']
  | case8 l token l₁ hname hkind operator l₂ hoperator hconnective hsymbol =>
    exact absurd hsymbol (ofSymbol?_operator hoperator hconnective)
  | case9 l token l₁ hname hkind operator l₂ hoperator hconnective comparison hsymbol l₃ hnone =>
    cases hread
    obtain ⟨token', l₁', hname', hkind', -, h₁⟩ := hsim.found h hname (by decide)
    obtain ⟨operator', l₂', hoperator', hconnective', hsymbol', h₂⟩ :=
      hsim.found h₁ hoperator (by decide)
    obtain ⟨l₃', hnone'⟩ := next_none_continued h₂ hnone hm
    refine ⟨mismatch .literal l₃', ?_⟩
    rw [readExpression_eq]
    simp only [hname', hkind', hkind, if_false, hoperator', hconnective', hconnective, hsymbol',
      hsymbol, hnone']

theorem read_continued {s more : List Char} (h : read s = .error m) (hm : m.rest ≠ [])
    (hmore : ∀ c ∈ more.head?, isBlank c) : ∃ m', read (s ++ more) = .error m' := by
  have hstart : (Lexer.start s).Continues (.start (s ++ more)) := ⟨more, hmore, rfl⟩
  unfold read at h
  split at h
  · rename_i m' hread
    cases h
    obtain ⟨m'', hread'⟩ := readExpression_continued hstart hread hm
    exact ⟨m'', by simp only [read, hread']⟩
  · rename_i p l hread
    split at h
    · rename_i l₁ hnone
      cases h
      have hl := not_isBlanks_of_next_none hnone (visible_eq_nil_iff.not.1 hm)
      obtain ⟨l', hread', hl'⟩ := readExpression_simulated Continues.simulation hstart hread hl
      obtain ⟨l₁', hnone'⟩ := next_none_continued hl' hnone hm
      exact ⟨mismatch .endOfInput l₁', by simp only [read, hread', hnone']⟩
    · cases h

theorem Mismatch.found_eq (m : Mismatch) : m.found =
    if m.rest = [] then "end of input" else "'" ++ String.ofList m.rest ++ "'" := rfl

theorem Mismatch.found_eq_iff (m : Mismatch) : m.found = "end of input" ↔ m.rest = [] := by
  constructor
  · intro h
    by_contra hm
    have hquote := congrArg (fun found : String ↦ found.toList.head?) h
    rw [m.found_eq, if_neg hm] at hquote
    simp at hquote
  · intro hm
    rw [m.found_eq, if_pos hm]

structure Mismatch.Marks (m : Mismatch) (source before : String) : Prop where
  source_eq : source = before ++ String.ofList m.rest
  offset_eq : m.offset = before.utf8ByteSize
  isValid : String.Pos.Raw.IsValid source ⟨m.offset⟩
  visible : ∀ c ∈ m.rest.head?, isBlank c = false
  found_eq : m.found = if m.rest = [] then "end of input" else "'" ++ String.ofList m.rest ++ "'"
  completes : ∃ more p, parse (before ++ more) = .ok p
  ends_iff : m.found = "end of input" ↔ ∃ more p, parse (source ++ " " ++ more) = .ok p

/-- The error of a text that is no predicate marks the place from which on it cannot be one. -/
theorem parse_error_marks {source : String} {error : PredicateError}
    (h : parse source = .error error) :
    ∃ m before, error = .invalid source m ∧ m.Marks source before := by
  cases hread : read source.toList with
  | ok p => simp [parse, hread] at h
  | error m =>
    rw [parse, hread, mapError_error] at h
    cases h
    obtain ⟨hextent, hvisible, before, more, p, hsource, hp⟩ := stops_of_read hread
    have hcompletes {s : String} (hs : s.toList = before) :
        ∃ more p, parse (s ++ " " ++ more) = .ok p := by
      refine ⟨String.ofList more, p, parse_eq_ok_iff.2 ?_⟩
      simpa [hs] using hp
    refine ⟨m, String.ofList before, rfl, ?_⟩
    have hstring : source = String.ofList before ++ String.ofList m.rest := by
      rw [← String.ofList_append, ← hsource, Lexer.start, String.ofList_toList]
    have hoffset : m.offset = (String.ofList before).utf8ByteSize := by
      rw [Lexer.extent, hsource, byteLength_append, Lexer.start, Nat.zero_add] at hextent
      rw [utf8ByteSize_ofList]
      omega
    refine
      { source_eq := hstring
        offset_eq := hoffset
        isValid := ?_
        visible := hvisible
        found_eq := m.found_eq
        completes := ?_
        ends_iff := ?_ }
    · rw [hoffset]
      exact String.Pos.Raw.isValid_iff_exists_append.2 ⟨_, _, hstring, rfl⟩
    · obtain ⟨more', p, hp⟩ := hcompletes String.toList_ofList
      exact ⟨" " ++ more', p, by rwa [← String.append_assoc]⟩
    · rw [m.found_eq_iff]
      constructor
      · intro hm
        refine hcompletes ?_
        rw [hstring, hm]
        simp
      · rintro ⟨more', p, hp⟩
        by_contra hm
        have hblank : ∀ c ∈ (' ' :: more'.toList).head?, isBlank c := by simp [isBlank]
        obtain ⟨m', hread'⟩ := read_continued hread hm hblank
        have hlist : (source ++ " " ++ more').toList = source.toList ++ ' ' :: more'.toList := by
          simp
        rw [parse, hlist, hread'] at hp
        cases hp

theorem parse_error_marks_half :
    parse "(a or(b\u3000<" = .error (.invalid "(a or(b\u3000<" ⟨.literal, 11, []⟩) ∧
      Mismatch.Marks ⟨.literal, 11, []⟩ "(a or(b\u3000<" "(a or(b\u3000<" ∧
    parse "(a or b) an" = .error (.invalid "(a or b) an" ⟨.endOfInput, 9, ['a', 'n']⟩) ∧
      Mismatch.Marks ⟨.endOfInput, 9, ['a', 'n']⟩ "(a or b) an" "(a or b) " := by
  have hend : parse "(a or(b\u3000<" = .error (.invalid "(a or(b\u3000<" ⟨.literal, 11, []⟩) := by
    decide +kernel
  have hword : parse "(a or b) an" =
      .error (.invalid "(a or b) an" ⟨.endOfInput, 9, ['a', 'n']⟩) := by
    decide +kernel
  obtain ⟨_, before, heq, hmarks⟩ := parse_error_marks hend
  cases heq
  obtain ⟨_, before', heq', hmarks'⟩ := parse_error_marks hword
  cases heq'
  have hbefore : before = "(a or(b\u3000<" := by
    simpa using hmarks.source_eq.symm
  have hbefore' : before' = "(a or b) " :=
    (String.append_left_inj "an").1 hmarks'.source_eq.symm
  subst hbefore hbefore'
  exact ⟨hend, hmarks, hword, hmarks'⟩

end Predicate

end Lading
