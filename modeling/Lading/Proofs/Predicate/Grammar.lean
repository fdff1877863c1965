import Lading.Predicate.Cache
import Lading.Proofs.Predicate.Blanks
import Lading.Proofs.Text.Runs

namespace Lading

open Text

theorem Comparison.ofSymbol?_symbol (c : Comparison) : ofSymbol? c.symbol = some c := by
  cases c <;> decide

theorem Comparison.not_isLiteralChar (comparison : Comparison) :
    ∀ c ∈ comparison.symbol.toList, Lexer.isLiteralChar c = false :=
  eq_false_of_any (by cases comparison <;> decide)

namespace Lexer

/-- What stands before a literal, a comparison and blanks, ends in no character of it. -/
theorem not_isLiteralChar_of_getLast? {front blanks : List Char} {comparison : Comparison}
    (hblanks : IsBlanks blanks) : ∀ c ∈ (front ++ comparison.symbol.toList ++ blanks).getLast?,
      isLiteralChar c = false := by
  intro c hc
  have hne : comparison.symbol.toList ++ blanks ≠ [] := by
    cases comparison <;> simp [Comparison.symbol]
  rw [List.append_assoc, List.getLast?_append_of_ne_nil _ hne] at hc
  rcases List.mem_append.1 (List.mem_of_mem_getLast? hc) with hc | hc
  · exact comparison.not_isLiteralChar c hc
  · exact hblanks.none not_isBlank_of_isLiteralChar c hc

section Lexemes

variable {lexeme rest : List Char}

theorem run?_append_iff {p : Char → Bool} : run? p (lexeme ++ rest) = some lexeme ↔
    lexeme ≠ [] ∧ (∀ c ∈ lexeme, p c) ∧ ∀ c ∈ rest.head?, p c = false := by
  constructor
  · intro h
    obtain ⟨hrun, hne⟩ := run?_eq_some h
    have hall : ∀ c ∈ lexeme, p c := by
      intro c hc
      rw [hrun] at hc
      exact List.mem_takeWhile_imp hc
    have hrest : rest = (lexeme ++ rest).dropWhile p := by
      have hsplit := List.takeWhile_append_dropWhile (p := p) (l := lexeme ++ rest)
      rw [← hrun] at hsplit
      exact (List.append_cancel_left hsplit).symm
    refine ⟨hne, hall, ?_⟩
    rw [hrest]
    exact head_dropWhile p _
  · rintro ⟨hne, hall, hrest⟩
    simp [run?, takeWhile_run hall hrest, hne]

theorem startsWithWord_append_iff {word : List Char} : startsWithWord word (word ++ rest) ↔
    ∀ c ∈ rest.head?, c.isAlphanum = false := by
  rw [startsWithWord, after?_append]
  cases rest <;> simp

theorem lexeme?_connective_eq_some (h : lexeme? .connective (lexeme ++ rest) = some lexeme) :
    ∃ k : Connective, lexeme = k.symbol.toList ∧ ∀ c ∈ rest.head?, c.isAlphanum = false := by
  obtain ⟨k, -, rfl⟩ := List.mem_map.1 (List.mem_of_find?_eq_some h)
  have hword : startsWithWord k.symbol.toList (k.symbol.toList ++ rest) :=
    List.find?_some (p := (startsWithWord · (k.symbol.toList ++ rest))) h
  exact ⟨k, rfl, startsWithWord_append_iff.1 hword⟩

theorem lexeme?_connective (k : Connective) (h : ∀ c ∈ rest.head?, c.isAlphanum = false) :
    lexeme? .connective (k.symbol.toList ++ rest) = some k.symbol.toList := by
  have hword : startsWithWord k.symbol.toList (k.symbol.toList ++ rest) :=
    startsWithWord_append_iff.2 h
  cases k with
  | and => simp [lexeme?, hword]
  | or =>
    have hand : startsWithWord Connective.and.symbol.toList (Connective.or.symbol.toList ++ rest) =
        false := rfl
    simp [lexeme?, hword, hand]

theorem lexeme?_comparison_eq_some (h : lexeme? .comparison (lexeme ++ rest) = some lexeme) :
    ∃ c : Comparison, lexeme = c.symbol.toList := by
  obtain ⟨c, -, rfl⟩ := List.mem_map.1 (List.mem_of_find?_eq_some h)
  exact ⟨c, rfl⟩

theorem lexeme?_comparison (c : Comparison) (h : ∀ d ∈ rest.head?, d ≠ '=') :
    lexeme? .comparison (c.symbol.toList ++ rest) = some c.symbol.toList := by
  cases rest with
  | nil => cases c <;> rfl
  | cons d rest =>
    have hd : ('=' == d) = false := beq_false_of_ne (h d rfl).symm
    cases c with
    | lt | gt =>
      simp only [lexeme?, Comparison.all, List.map_cons, List.find?_cons]
      simp [Comparison.symbol, List.isPrefixOf, hd]
    | le | ge | eq | ne => rfl

end Lexemes

theorem next_of_first? {accepted : List TokenKind} {l : Lexer} {kind : TokenKind}
    {lexeme rest : List Char} (hl : l.visible = lexeme ++ rest)
    (h : first? accepted (lexeme ++ rest) = some (kind, lexeme)) :
    ∃ m, l.next accepted =
      (some ⟨kind, String.ofList lexeme, l.skipBlanks.offset⟩, m) ∧ m.rest = rest := by
  refine ⟨l.skipBlanks.advance lexeme, ?_, ?_⟩
  · simp only [next, skipBlanks, hl, h]
  · simp only [advance, skipBlanks, hl, List.drop_left]

theorem next_of_first?_none {accepted : List TokenKind} {l : Lexer}
    (h : first? accepted l.visible = none) : l.next accepted = (none, l.skipBlanks) := by
  simp only [next, skipBlanks, h]

theorem exists_blanks (l : Lexer) : ∃ blanks, IsBlanks blanks ∧ l.rest = blanks ++ l.visible :=
  ⟨l.rest.takeWhile isBlank, fun _ hc ↦ List.mem_takeWhile_imp hc,
    List.takeWhile_append_dropWhile.symm⟩

theorem next_splits {accepted : List TokenKind} {l m : Lexer} {t : Token}
    (h : l.next accepted = (some t, m)) : ∃ blanks lexeme, IsBlanks blanks ∧
      l.rest = blanks ++ lexeme ++ m.rest ∧ t.kind ∈ accepted ∧ t.text = String.ofList lexeme ∧
      lexeme? t.kind (lexeme ++ m.rest) = some lexeme := by
  obtain ⟨lexeme, hkind, hlexeme, ht, rfl⟩ := next_eq_some h
  obtain ⟨blanks, hblanks, hl⟩ := l.exists_blanks
  obtain ⟨rest, hrest⟩ := lexeme?_isStart hlexeme
  have hm : (l.skipBlanks.advance lexeme).rest = rest := by
    simp only [advance, skipBlanks, ← hrest, List.drop_left]
  refine ⟨blanks, lexeme, hblanks, ?_, hkind, congrArg Token.text ht, ?_⟩
  · rw [hl, hm, ← hrest, List.append_assoc]
  · rwa [hm, hrest]

theorem next_none_splits {accepted : List TokenKind} {l m : Lexer}
    (h : l.next accepted = (none, m)) : ∃ blanks, IsBlanks blanks ∧ l.rest = blanks ++ m.rest := by
  rw [eq_skipBlanks_of_next h]
  exact l.exists_blanks

theorem first?_one (kind : TokenKind) (s : List Char) :
    first? [kind] s = (lexeme? kind s).map (kind, ·) := by
  cases kind <;> simp [first?, TokenKind.all]

theorem first?_operand (s : List Char) : first? [.name, .openParen] s =
    ((lexeme? .openParen s).map (.openParen, ·)).or ((lexeme? .name s).map (.name, ·)) := by
  change [TokenKind.openParen, .name].findSome? _ = _
  rw [List.findSome?_cons, List.findSome?_singleton]
  cases lexeme? .openParen s <;> rfl

theorem first?_operator (s : List Char) : first? [.connective, .comparison] s =
    ((lexeme? .connective s).map (.connective, ·)).or
      ((lexeme? .comparison s).map (.comparison, ·)) := by
  change [TokenKind.connective, .comparison].findSome? _ = _
  rw [List.findSome?_cons, List.findSome?_singleton]
  cases lexeme? .connective s <;> rfl

end Lexer

namespace Predicate

open Lexer

/-- The predicate that a text stands for. Names and literals are longest runs of their characters,
blanks may stand between any two parts, and the right side of a connective does not go on with the
word. -/
inductive Denotes : List Char → Predicate → Prop
  | atom {s name s₁ : List Char} (hs : IsBlanks s) (hs₁ : IsBlanks s₁)
      (hname : IsRun Char.isAlphanum s name s₁) :
      Denotes (s ++ name ++ s₁) (.atom (String.ofList name))
  | compared {s name s₁ s₂ literal s₃ : List Char} {comparison : Comparison}
      (hs : IsBlanks s) (hs₁ : IsBlanks s₁) (hs₂ : IsBlanks s₂) (hs₃ : IsBlanks s₃)
      (hname : IsRun Char.isAlphanum s name
        (s₁ ++ comparison.symbol.toList ++ s₂ ++ literal ++ s₃))
      (hliteral : IsRun isLiteralChar (s ++ name ++ s₁ ++ comparison.symbol.toList ++ s₂)
        literal s₃) :
      Denotes (s ++ name ++ s₁ ++ comparison.symbol.toList ++ s₂ ++ literal ++ s₃)
        (.compared (String.ofList name) comparison (String.ofList literal))
  | joined {s name s₁ right : List Char} {connective : Connective} {p : Predicate}
      (hs : IsBlanks s) (hs₁ : IsBlanks s₁)
      (hname : IsRun Char.isAlphanum s name (s₁ ++ connective.symbol.toList ++ right))
      (hright : ∀ c ∈ right.head?, c.isAlphanum = false) (hp : Denotes right p) :
      Denotes (s ++ name ++ s₁ ++ connective.symbol.toList ++ right)
        (.joined (.atom (String.ofList name)) connective p)
  | parenthesized {s inner s₁ : List Char} {p : Predicate} (hs : IsBlanks s) (hs₁ : IsBlanks s₁)
      (hp : Denotes inner p) : Denotes (s ++ ['('] ++ inner ++ [')'] ++ s₁) p

theorem Denotes.ne_nil {s : List Char} {p : Predicate} (h : Denotes s p) : s ≠ [] := by
  cases h with
  | atom hs hs₁ hname => simp [hname.ne_nil]
  | compared hs hs₁ hs₂ hs₃ hname hliteral => simp [hname.ne_nil]
  | joined hs hs₁ hname hright hp => simp [hname.ne_nil]
  | parenthesized hs hs₁ hp => simp

theorem Denotes.append_blanks {s blanks : List Char} {p : Predicate} (h : Denotes s p)
    (hblanks : IsBlanks blanks) : Denotes (s ++ blanks) p := by
  have hends {t : List Char} (ht : IsBlanks t) : IsBlanks (t ++ blanks) := ht.append hblanks
  induction h with
  | @atom s name s₁ hs hs₁ hname =>
    rw [List.append_assoc]
    refine .atom hs (hends hs₁) { hname with ends := ?_ }
    exact fun c hc ↦ (hends hs₁).none not_isBlank_of_isAlphanum c (List.mem_of_mem_head? hc)
  | @compared s name s₁ s₂ literal s₃ comparison hs hs₁ hs₂ hs₃ hname hliteral =>
    rw [List.append_assoc]
    refine .compared hs hs₁ hs₂ (hends hs₃) ?_ { hliteral with ends := ?_ }
    · have happend := hname.append (by simp [hliteral.ne_nil]) blanks
      rwa [List.append_assoc _ s₃] at happend
    · exact fun c hc ↦ (hends hs₃).none not_isBlank_of_isLiteralChar c (List.mem_of_mem_head? hc)
  | @joined s name s₁ right connective p hs hs₁ hname hright hp ih =>
    have hne := hp.ne_nil
    rw [List.append_assoc]
    refine .joined hs hs₁ ?_ ?_ ih
    · have happend := hname.append (by simp [hne]) blanks
      rwa [List.append_assoc _ right] at happend
    · rwa [List.head?_append_of_ne_nil _ hne]
  | @parenthesized s inner s₁ p hs hs₁ hp =>
    rw [List.append_assoc]
    exact .parenthesized hs (hends hs₁) hp

section Tokens

variable {l m : Lexer} {t : Token}

theorem exists_name (h : l.next [.name, .openParen] = (some t, m)) (hkind : t.kind ≠ .openParen) :
    ∃ s name, IsBlanks s ∧ l.rest = s ++ name ++ m.rest ∧ t.text = String.ofList name ∧
      IsRun Char.isAlphanum s name m.rest := by
  obtain ⟨s, name, hs, hl, hmem, htext, hlexeme⟩ := next_splits h
  have hname : t.kind = .name := by simpa [hkind] using hmem
  rw [hname] at hlexeme
  obtain ⟨hne, hall, hends⟩ := run?_append_iff.1 hlexeme
  refine ⟨s, name, hs, hl, htext, hne, hall, ?_, hends⟩
  exact fun c hc ↦ hs.none not_isBlank_of_isAlphanum c (List.mem_of_mem_getLast? hc)

theorem exists_openParen (h : l.next [.name, .openParen] = (some t, m))
    (hkind : t.kind = .openParen) : ∃ s, IsBlanks s ∧ l.rest = s ++ ['('] ++ m.rest := by
  obtain ⟨s, lexeme, hs, hl, -, -, hlexeme⟩ := next_splits h
  rw [hkind, lexeme?] at hlexeme
  split at hlexeme
  · cases hlexeme
    exact ⟨s, hs, hl⟩
  · cases hlexeme

theorem exists_closeParen (h : l.next [.closeParen] = (some t, m)) :
    ∃ s, IsBlanks s ∧ l.rest = s ++ [')'] ++ m.rest := by
  obtain ⟨s, lexeme, hs, hl, hmem, -, hlexeme⟩ := next_splits h
  rw [List.mem_singleton.1 hmem, lexeme?] at hlexeme
  split at hlexeme
  · cases hlexeme
    exact ⟨s, hs, hl⟩
  · cases hlexeme

theorem exists_connective (h : l.next [.connective, .comparison] = (some t, m))
    (hkind : t.kind = .connective) : ∃ s, ∃ connective : Connective, IsBlanks s ∧
      l.rest = s ++ connective.symbol.toList ++ m.rest ∧ t.text = connective.symbol ∧
      ∀ c ∈ m.rest.head?, c.isAlphanum = false := by
  obtain ⟨s, lexeme, hs, hl, -, htext, hlexeme⟩ := next_splits h
  rw [hkind] at hlexeme
  obtain ⟨connective, rfl, hends⟩ := lexeme?_connective_eq_some hlexeme
  exact ⟨s, connective, hs, hl, by rw [htext, String.ofList_toList], hends⟩

theorem exists_comparison (h : l.next [.connective, .comparison] = (some t, m))
    (hkind : t.kind ≠ .connective) : ∃ s, ∃ comparison : Comparison, IsBlanks s ∧
      l.rest = s ++ comparison.symbol.toList ++ m.rest ∧ t.text = comparison.symbol := by
  obtain ⟨s, lexeme, hs, hl, hmem, htext, hlexeme⟩ := next_splits h
  have hcomparison : t.kind = .comparison := by simpa [hkind] using hmem
  rw [hcomparison] at hlexeme
  obtain ⟨comparison, rfl⟩ := lexeme?_comparison_eq_some hlexeme
  exact ⟨s, comparison, hs, hl, by rw [htext, String.ofList_toList]⟩

theorem exists_literal (h : l.next [.literal] = (some t, m)) : ∃ s literal, IsBlanks s ∧
    l.rest = s ++ literal ++ m.rest ∧ t.text = String.ofList literal ∧ literal ≠ [] ∧
      ∀ c ∈ literal, isLiteralChar c := by
  obtain ⟨s, literal, hs, hl, hmem, htext, hlexeme⟩ := next_splits h
  rw [List.mem_singleton.1 hmem] at hlexeme
  obtain ⟨hne, hall, -⟩ := run?_append_iff.1 hlexeme
  exact ⟨s, literal, hs, hl, htext, hne, hall⟩

end Tokens

theorem denotes_of_readExpression {l m : Lexer} {p : Predicate}
    (h : readExpression l = .ok (p, m)) : ∃ s, l.rest = s ++ m.rest ∧ Denotes s p := by
  fun_induction readExpression l generalizing p m with
  | case1 | case2 | case3 | case6 | case8 | case9 => cases h
  | case4 l token l₁ hopen hkind inner l₂ hinner t l₃ hclose ih =>
    cases h
    obtain ⟨s, hs, hl⟩ := exists_openParen hopen hkind
    obtain ⟨text, hl₁, htext⟩ := ih hinner
    obtain ⟨s₁, hs₁, hl₂⟩ := exists_closeParen hclose
    refine ⟨s ++ ['('] ++ (text ++ s₁) ++ [')'] ++ [], ?_,
      .parenthesized hs isBlanks_nil (htext.append_blanks hs₁)⟩
    simp [hl, hl₁, hl₂]
  | case5 l token l₁ hname hkind l₂ hnone =>
    cases h
    obtain ⟨s, name, hs, hl, htext, hrun⟩ := exists_name hname hkind
    obtain ⟨s₁, hs₁, hl₁⟩ := next_none_splits hnone
    rw [hl₁] at hl hrun
    rw [htext]
    exact ⟨_, by simp [hl], .atom hs hs₁ (.of_append _ hrun)⟩
  | case7 l token l₁ hname hkind operator l₂ hoperator hconnective connective right l₃ hright =>
    rename_i ih
    cases h
    obtain ⟨s, name, hs, hl, htext, hrun⟩ := exists_name hname hkind
    obtain ⟨s₁, symbol, hs₁, hl₁, hsymbol, hends⟩ := exists_connective hoperator hconnective
    obtain ⟨text, hl₂, hdenotes⟩ := ih hright
    have hk : connective = symbol := by
      simp only [connective, hsymbol]
      cases symbol <;> rfl
    rw [hl₁, hl₂, ← List.append_assoc] at hrun
    rw [hl₂, List.head?_append_of_ne_nil _ hdenotes.ne_nil] at hends
    rw [htext, hk]
    exact ⟨_, by simp [hl, hl₁, hl₂], .joined hs hs₁ (.of_append _ hrun) hends hdenotes⟩
  | case10 l token l₁ hname hkind operator l₂ hoperator hconnective comparison hsymbol literal l₃
      hliteral =>
    cases h
    obtain ⟨s, name, hs, hl, htext, hrun⟩ := exists_name hname hkind
    obtain ⟨s₁, comparison', hs₁, hl₁, hsymbol'⟩ := exists_comparison hoperator hconnective
    obtain ⟨s₂, value, hs₂, hl₂, hvalue, hne, hall⟩ := exists_literal hliteral
    have hc : comparison' = comparison := by
      rw [hsymbol', Comparison.ofSymbol?_symbol] at hsymbol
      exact Option.some.inj hsymbol
    subst hc
    have hrun' : IsRun Char.isAlphanum s name
        (s₁ ++ comparison'.symbol.toList ++ s₂ ++ value ++ []) := by
      rw [hl₁, hl₂] at hrun
      refine IsRun.of_append l₃.rest ?_
      simpa using hrun
    have hvalue' : IsRun isLiteralChar (s ++ name ++ s₁ ++ comparison'.symbol.toList ++ s₂) value
        [] := ⟨hne, hall, not_isLiteralChar_of_getLast? hs₂, by simp⟩
    rw [htext, hvalue]
    exact ⟨_, by simp [hl, hl₁, hl₂], .compared hs hs₁ hs₂ isBlanks_nil hrun' hvalue'⟩

section Expected

variable {l : Lexer} {s rest : List Char}

theorem next_of_lexeme {accepted : List TokenKind} {kind : TokenKind} {lexeme : List Char}
    (hs : IsBlanks s) (hhead : ∀ c ∈ (lexeme ++ rest).head?, isBlank c = false)
    (hl : l.rest = s ++ lexeme ++ rest)
    (h : first? accepted (lexeme ++ rest) = some (kind, lexeme)) :
    ∃ t m, l.next accepted = (some t, m) ∧ t.kind = kind ∧ t.text = String.ofList lexeme ∧
      m.rest = rest := by
  have hvisible : l.visible = lexeme ++ rest := by
    rw [visible, hl, List.append_assoc, trimStart_append hs hhead]
  obtain ⟨m, hnext, hm⟩ := next_of_first? hvisible h
  exact ⟨_, m, hnext, rfl, rfl, hm⟩

theorem next_name {name : List Char} (hs : IsBlanks s) (hname : IsRun Char.isAlphanum s name rest)
    (hl : l.rest = s ++ name ++ rest) : ∃ t m, l.next [.name, .openParen] = (some t, m) ∧
      t.kind = .name ∧ t.text = String.ofList name ∧ m.rest = rest := by
  refine next_of_lexeme hs (fun c hc ↦ not_isBlank_of_isAlphanum c (hname.head c hc)) hl ?_
  have hparen : lexeme? .openParen (name ++ rest) = none := by
    rw [lexeme?, if_neg]
    intro hhead
    exact absurd (hname.head _ hhead) (by decide)
  rw [first?_operand, hparen, lexeme?, run?_append_iff.2 ⟨hname.ne_nil, hname.all, hname.ends⟩]
  rfl

theorem next_openParen (hs : IsBlanks s) (hl : l.rest = s ++ ['('] ++ rest) :
    ∃ t m, l.next [.name, .openParen] = (some t, m) ∧ t.kind = .openParen ∧ m.rest = rest := by
  have hfirst : first? [.name, .openParen] (['('] ++ rest) = some (.openParen, ['(']) := by
    rw [first?_operand]
    rfl
  obtain ⟨t, m, hnext, hkind, -, hm⟩ := next_of_lexeme hs (by simp [isBlank]) hl hfirst
  exact ⟨t, m, hnext, hkind, hm⟩

theorem next_closeParen (hs : IsBlanks s) (hl : l.rest = s ++ [')'] ++ rest) :
    ∃ t m, l.next [.closeParen] = (some t, m) ∧ m.rest = rest := by
  have hfirst : first? [.closeParen] ([')'] ++ rest) = some (.closeParen, [')']) := by
    rw [first?_one]
    rfl
  obtain ⟨t, m, hnext, -, -, hm⟩ := next_of_lexeme hs (by simp [isBlank]) hl hfirst
  exact ⟨t, m, hnext, hm⟩

theorem next_connective (connective : Connective) (hs : IsBlanks s)
    (hrest : ∀ c ∈ rest.head?, c.isAlphanum = false)
    (hl : l.rest = s ++ connective.symbol.toList ++ rest) :
    ∃ t m, l.next [.connective, .comparison] = (some t, m) ∧ t.kind = .connective ∧
      t.text = connective.symbol ∧ m.rest = rest := by
  have hhead : ∀ c ∈ (connective.symbol.toList ++ rest).head?, isBlank c = false := by
    cases connective <;> simp [Connective.symbol, isBlank]
  have hfirst : first? [.connective, .comparison] (connective.symbol.toList ++ rest) =
      some (.connective, connective.symbol.toList) := by
    rw [first?_operator, lexeme?_connective connective hrest]
    rfl
  obtain ⟨t, m, hnext, hkind, htext, hm⟩ := next_of_lexeme hs hhead hl hfirst
  exact ⟨t, m, hnext, hkind, by rw [htext, String.ofList_toList], hm⟩

theorem next_comparison (comparison : Comparison) (hs : IsBlanks s)
    (hrest : ∀ c ∈ rest.head?, c ≠ '=')
    (hl : l.rest = s ++ comparison.symbol.toList ++ rest) :
    ∃ t m, l.next [.connective, .comparison] = (some t, m) ∧ t.kind = .comparison ∧
      t.text = comparison.symbol ∧ m.rest = rest := by
  have hhead : ∀ c ∈ (comparison.symbol.toList ++ rest).head?, isBlank c = false := by
    cases comparison <;> simp [Comparison.symbol, isBlank]
  have hconnective : lexeme? .connective (comparison.symbol.toList ++ rest) = none := by
    cases comparison <;> rfl
  have hfirst : first? [.connective, .comparison] (comparison.symbol.toList ++ rest) =
      some (.comparison, comparison.symbol.toList) := by
    rw [first?_operator, hconnective, lexeme?_comparison comparison hrest]
    rfl
  obtain ⟨t, m, hnext, hkind, htext, hm⟩ := next_of_lexeme hs hhead hl hfirst
  exact ⟨t, m, hnext, hkind, by rw [htext, String.ofList_toList], hm⟩

theorem next_literal {before literal : List Char} (hs : IsBlanks s)
    (hliteral : IsRun isLiteralChar before literal rest) (hl : l.rest = s ++ literal ++ rest) :
    ∃ t m, l.next [.literal] = (some t, m) ∧ t.text = String.ofList literal ∧ m.rest = rest := by
  have hhead : ∀ c ∈ (literal ++ rest).head?, isBlank c = false :=
    fun c hc ↦ not_isBlank_of_isLiteralChar c (hliteral.head c hc)
  have hfirst : first? [.literal] (literal ++ rest) = some (.literal, literal) := by
    rw [first?_one, lexeme?, run?_append_iff.2 ⟨hliteral.ne_nil, hliteral.all, hliteral.ends⟩]
    rfl
  obtain ⟨t, m, hnext, -, htext, hm⟩ := next_of_lexeme hs hhead hl hfirst
  exact ⟨t, m, hnext, htext, hm⟩

/-- What may follow an expression: nothing, or the parenthesis that closes it. -/
def IsEnd (s : List Char) : Prop := ∀ c ∈ s.head?, c = ')'

theorem IsEnd.not_isBlank (h : IsEnd rest) : ∀ c ∈ rest.head?, isBlank c = false := by
  intro c hc
  rw [h c hc]
  decide

theorem IsEnd.head_append {p : Char → Bool} (hp : ∀ c, p c → isBlank c = false)
    (hparen : p ')' = false) (h : IsEnd rest) (hs : IsBlanks s) :
    ∀ c ∈ (s ++ rest).head?, p c = false := by
  intro c hc
  cases s with
  | nil =>
    rw [h c hc]
    exact hparen
  | cons d s =>
    cases hc
    exact hs.none hp _ List.mem_cons_self

theorem next_none_of_isEnd (hs : IsBlanks s) (hrest : IsEnd rest) (hl : l.rest = s ++ rest) :
    l.next [.connective, .comparison] = (none, l.skipBlanks) ∧ l.skipBlanks.rest = rest := by
  have hvisible : l.visible = rest := by
    rw [visible, hl, trimStart_append hs hrest.not_isBlank]
  refine ⟨next_of_first?_none ?_, hvisible⟩
  rw [hvisible, first?_operator]
  cases rest with
  | nil => rfl
  | cons c rest =>
    rw [hrest c rfl]
    rfl

end Expected

theorem readExpression_of_denotes {s : List Char} {p : Predicate} (h : Denotes s p)
    {rest : List Char} (hrest : IsEnd rest) {l : Lexer} (hl : l.rest = s ++ rest) :
    ∃ m, readExpression l = .ok (p, m) ∧ m.visible = rest := by
  induction h generalizing rest l with
  | @atom s name s₁ hs hs₁ hname =>
    have hrun : IsRun Char.isAlphanum s name (s₁ ++ rest) :=
      { hname with ends := hrest.head_append not_isBlank_of_isAlphanum (by decide) hs₁ }
    obtain ⟨t, l₁, hnext, hkind, htext, hl₁⟩ := next_name hs hrun (l := l) (by simp [hl])
    obtain ⟨hnone, hvisible⟩ := next_none_of_isEnd hs₁ hrest hl₁
    refine ⟨l₁.skipBlanks, ?_, ?_⟩
    · rw [readExpression_eq]
      simp [hnext, hkind, hnone, htext]
    · rw [visible, hvisible]
      exact trimStart_append isBlanks_nil hrest.not_isBlank
  | @compared s name s₁ s₂ literal s₃ comparison hs hs₁ hs₂ hs₃ hname hliteral =>
    have hrun := hname.append (by simp [hliteral.ne_nil]) rest
    have hvalue : IsRun isLiteralChar (s ++ name ++ s₁ ++ comparison.symbol.toList ++ s₂) literal
        (s₃ ++ rest) :=
      { hliteral with ends := hrest.head_append not_isBlank_of_isLiteralChar (by decide) hs₃ }
    have hequals : ∀ c ∈ (s₂ ++ (literal ++ (s₃ ++ rest))).head?, c ≠ '=' := by
      rintro c hc rfl
      cases s₂ with
      | nil => exact absurd (hvalue.head _ hc) (by decide)
      | cons d s₂ =>
        cases hc
        exact absurd (hs₂ _ List.mem_cons_self) (by decide)
    obtain ⟨t, l₁, hnext, hkind, htext, hl₁⟩ := next_name hs hrun (l := l) (by simp [hl])
    obtain ⟨t₁, l₂, hnext₁, hkind₁, htext₁, hl₂⟩ := next_comparison comparison hs₁ hequals
      (l := l₁) (by simp [hl₁])
    obtain ⟨t₂, l₃, hnext₂, htext₂, hl₃⟩ := next_literal hs₂ hvalue (l := l₂) (by simp [hl₂])
    refine ⟨l₃, ?_, ?_⟩
    · rw [readExpression_eq]
      simp [hnext, hkind, hnext₁, hkind₁, hnext₂, htext, htext₁, htext₂,
        Comparison.ofSymbol?_symbol]
    · rw [visible, hl₃, trimStart_append hs₃ hrest.not_isBlank]
  | @joined s name s₁ right connective p hs hs₁ hname hright hp ih =>
    have hne := hp.ne_nil
    have hrun := hname.append (by simp [hne]) rest
    have hends : ∀ c ∈ (right ++ rest).head?, c.isAlphanum = false := by
      rwa [List.head?_append_of_ne_nil _ hne]
    obtain ⟨t, l₁, hnext, hkind, htext, hl₁⟩ := next_name hs hrun (l := l) (by simp [hl])
    obtain ⟨t₁, l₂, hnext₁, hkind₁, htext₁, hl₂⟩ := next_connective connective hs₁ hends
      (l := l₁) (by simp [hl₁])
    obtain ⟨l₃, hright, hl₃⟩ := ih hrest hl₂
    refine ⟨l₃, ?_, hl₃⟩
    have hk : (if connective.symbol = "and" then Connective.and else .or) = connective := by
      cases connective <;> rfl
    rw [readExpression_eq]
    simp [hnext, hkind, hnext₁, hkind₁, hright, htext, htext₁, hk]
  | @parenthesized s inner s₁ p hs hs₁ hp ih =>
    have hclose : IsEnd (')' :: (s₁ ++ rest)) := by simp [IsEnd]
    have hl₀ : l.rest = s ++ ['('] ++ (inner ++ (')' :: (s₁ ++ rest))) := by simp [hl]
    obtain ⟨t, l₁, hopen, hkind, hl₁⟩ := next_openParen hs hl₀
    obtain ⟨l₂, hinner, hl₂⟩ := ih hclose hl₁
    obtain ⟨blanks, hblanks, hl₂'⟩ := l₂.exists_blanks
    have hparen : l₂.rest = blanks ++ [')'] ++ (s₁ ++ rest) := by simp [hl₂', hl₂]
    obtain ⟨t₁, l₃, hnext, hl₃⟩ := next_closeParen hblanks hparen
    refine ⟨l₃, ?_, ?_⟩
    · rw [readExpression_eq]
      simp [hopen, hkind, hinner, hnext]
    · rw [visible, hl₃, trimStart_append hs₁ hrest.not_isBlank]

theorem read_eq_ok_iff {s : List Char} {p : Predicate} : read s = .ok p ↔ Denotes s p := by
  constructor
  · intro h
    unfold read at h
    split at h
    · cases h
    · rename_i q l hread
      obtain ⟨consumed, hs, hq⟩ := denotes_of_readExpression hread
      split at h
      · cases h
      · rename_i t m hend
        cases h
        obtain ⟨blanks, lexeme, hblanks, hl, hkind, -, hlexeme⟩ := next_splits hend
        have hnil : lexeme ++ m.rest = [] := by
          rw [List.mem_singleton.1 hkind, lexeme?] at hlexeme
          split at hlexeme
          · assumption
          · cases hlexeme
        rw [List.append_assoc, hnil, List.append_nil] at hl
        have happend := hq.append_blanks hblanks
        rwa [← hl, ← hs] at happend
  · intro h
    have hend : IsEnd [] := by simp [IsEnd]
    have hstart : (Lexer.start s).rest = s ++ [] := by simp [Lexer.start]
    obtain ⟨m, hread, hm⟩ := readExpression_of_denotes h hend hstart
    have hfirst : first? [.endOfInput] ([] ++ []) = some (.endOfInput, []) := rfl
    obtain ⟨m', hend, -⟩ := next_of_first? hm hfirst
    simp [read, hread, hend]

theorem parse_eq_ok_iff {source : String} {p : Predicate} :
    parse source = .ok p ↔ Denotes source.toList p := by
  rw [← read_eq_ok_iff, parse]
  cases read source.toList <;> simp

/-- A text is read as the predicate that it denotes, if there is one, and it denotes at most
one. -/
theorem parse_denotes (source : String) :
    (∀ p, parse source = .ok p ↔ Denotes source.toList p) ∧
      {p | Denotes source.toList p}.Subsingleton := by
  refine ⟨fun p ↦ parse_eq_ok_iff, ?_⟩
  intro p hp q hq
  have hread := parse_eq_ok_iff.2 hp
  rw [parse_eq_ok_iff.2 hq] at hread
  exact (Except.ok.inj hread).symm

/-- A word is a connective only where one may follow. -/
example : parse " and or( or and 2<2.0-x )" = .ok (.joined (.atom "and") .or
    (.joined (.atom "or") .and (.compared "2" .lt "2.0-x"))) := by
  cbv

end Predicate

end Lading
