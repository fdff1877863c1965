import Lading.Predicate.Cache
import Lading.Proofs.Results
import Lading.Proofs.Text.Blanks
import Mathlib.Data.List.Find

namespace Lading

theorem Connective.not_isBlank (connective : Connective) :
    ∀ c ∈ connective.symbol.toList, Text.isBlank c = false := by
  cases connective <;> simp [symbol, Text.isBlank]

theorem Comparison.not_isBlank (comparison : Comparison) :
    ∀ c ∈ comparison.symbol.toList, Text.isBlank c = false := by
  cases comparison <;> simp [symbol, Text.isBlank]

namespace Lexer

open Text

theorem startsWithWord_append_blank {word s more : List Char}
    (hword : ∀ c ∈ word, isBlank c = false) (hmore : ∀ c ∈ more.head?, isBlank c) :
    startsWithWord word (s ++ more) = startsWithWord word s := by
  rw [startsWithWord, startsWithWord, after?_append_blank hword hmore]
  cases after? word s with
  | none => rfl
  | some rest =>
    cases rest with
    | cons => rfl
    | nil =>
      cases more with
      | nil => rfl
      | cons c more =>
        have hc : c.isAlphanum = false := by
          by_contra hc
          have hblank := not_isBlank_of_isAlphanum c (by simpa using hc)
          rw [hmore c rfl] at hblank
          cases hblank
        simp [hc]

theorem not_isBlank_of_isLiteralChar (c : Char) (h : isLiteralChar c) : isBlank c = false :=
  not_isBlank_of_isGraphic (Bool.and_eq_true_iff.1 h).1

/-- What follows a text behind a blank makes no difference to the lexeme at its start. -/
theorem lexeme?_append_blank (kind : TokenKind) {s more : List Char}
    (hmore : ∀ c ∈ more.head?, isBlank c) (hs : s = [] → more = []) :
    lexeme? kind (s ++ more) = lexeme? kind s := by
  cases kind with
  | endOfInput =>
    cases s with
    | nil => rw [hs rfl, List.append_nil]
    | cons => rfl
  | openParen | closeParen =>
    cases s with
    | nil => rw [hs rfl, List.append_nil]
    | cons => rfl
  | connective =>
    have hwords : ∀ word ∈ [Connective.and, .or].map (·.symbol.toList),
        ∀ c ∈ word, isBlank c = false :=
      List.forall_mem_map.2 fun connective _ ↦ connective.not_isBlank
    exact List.find?_congr fun word hword ↦ startsWithWord_append_blank (hwords word hword) hmore
  | comparison =>
    have hsymbols : ∀ symbol ∈ Comparison.all.map (·.symbol.toList),
        ∀ c ∈ symbol, isBlank c = false :=
      List.forall_mem_map.2 fun comparison _ ↦ comparison.not_isBlank
    have hprefix : ∀ symbol ∈ Comparison.all.map (·.symbol.toList),
        symbol.isPrefixOf (s ++ more) = symbol.isPrefixOf s := by
      intro symbol hsymbol
      rw [isPrefixOf_eq_isSome, isPrefixOf_eq_isSome,
        after?_append_blank (hsymbols symbol hsymbol) hmore, Option.isSome_map]
    exact List.find?_congr hprefix
  | name =>
    simp only [lexeme?, run?, takeWhile_append_blank not_isBlank_of_isAlphanum hmore]
  | literal =>
    simp only [lexeme?, run?, takeWhile_append_blank not_isBlank_of_isLiteralChar hmore]

theorem first?_append_blank (accepted : List TokenKind) {s more : List Char}
    (hmore : ∀ c ∈ more.head?, isBlank c) (hs : s = [] → more = []) :
    first? accepted (s ++ more) = first? accepted s := by
  simp only [first?, lexeme?_append_blank _ hmore hs]

theorem first?_visible (accepted : List TokenKind) (l : Lexer) :
    first? accepted l.visible = first? accepted (trim l.rest) := by
  obtain ⟨blanks, hblanks, heq, hnil⟩ := trimStart_eq l.rest
  have hhead : ∀ c ∈ blanks.head?, isBlank c := fun c hc ↦ hblanks c (List.mem_of_mem_head? hc)
  rw [visible, heq, first?_append_blank accepted hhead hnil]

theorem first?_isStart {accepted : List TokenKind} {s lexeme : List Char} {kind : TokenKind}
    (h : first? accepted s = some (kind, lexeme)) : lexeme <+: s := by
  obtain ⟨_, -, hkind⟩ := List.exists_of_findSome?_eq_some h
  obtain ⟨_, hlexeme, heq⟩ := Option.map_eq_some_iff.1 hkind
  cases heq
  exact lexeme?_isStart hlexeme

theorem trim_drop_visible {l : Lexer} {lexeme : List Char} (h : lexeme <+: trim l.rest) :
    trim (l.visible.drop lexeme.length) = trim ((trim l.rest).drop lexeme.length) := by
  obtain ⟨blanks, hblanks, heq, -⟩ := trimStart_eq l.rest
  rw [visible, heq, List.drop_append_of_le_length h.length_le, trim_append_blanks hblanks]

section Next

variable {l l' m : Lexer} {accepted : List TokenKind} {t : Token}

theorem eq_skipBlanks_of_next (h : l.next accepted = (none, m)) : m = l.skipBlanks := by
  simp only [next] at h
  split at h <;> simp_all

theorem next_none_congr (h : first? accepted l'.visible = first? accepted l.visible)
    (hnext : l.next accepted = (none, m)) : l'.next accepted = (none, l'.skipBlanks) := by
  unfold next at hnext ⊢
  simp only [skipBlanks, h] at hnext ⊢
  split at hnext
  · rfl
  · cases hnext

theorem next_some_congr (h : first? accepted l'.visible = first? accepted l.visible)
    (hnext : l.next accepted = (some t, m)) : ∃ lexeme t',
      first? accepted l.visible = some (t.kind, lexeme) ∧ m = l.skipBlanks.advance lexeme ∧
      t'.kind = t.kind ∧ t'.text = t.text ∧
      l'.next accepted = (some t', l'.skipBlanks.advance lexeme) := by
  unfold next at hnext ⊢
  simp only [skipBlanks, h] at hnext ⊢
  split at hnext
  · cases hnext
  · cases hnext
    rename_i kind lexeme hfirst
    refine ⟨lexeme, ⟨kind, String.ofList lexeme, l'.skipBlanks.offset⟩, hfirst, rfl, rfl, rfl, ?_⟩
    rfl

/-- Lexers with the same text left, up to blanks at its ends. -/
def Alike (l l' : Lexer) : Prop := trim l.rest = trim l'.rest

theorem Alike.first?_visible (h : l.Alike l') (accepted : List TokenKind) :
    first? accepted l'.visible = first? accepted l.visible := by
  rw [Lexer.first?_visible, Lexer.first?_visible, show trim l.rest = trim l'.rest from h]

theorem Alike.next_none (h : l.Alike l') (hnext : l.next accepted = (none, m)) :
    ∃ m', l'.next accepted = (none, m') ∧ m.Alike m' := by
  refine ⟨_, next_none_congr (h.first?_visible accepted) hnext, ?_⟩
  rw [eq_skipBlanks_of_next hnext]
  simpa only [Alike, skipBlanks, visible, trim_trimStart] using h

theorem Alike.next_some (h : l.Alike l') (hnext : l.next accepted = (some t, m)) :
    ∃ t' m', l'.next accepted = (some t', m') ∧ t'.kind = t.kind ∧ t'.text = t.text ∧
      m.Alike m' := by
  obtain ⟨lexeme, t', hfirst, rfl, hkind, htext, hnext'⟩ :=
    next_some_congr (h.first?_visible accepted) hnext
  rw [Lexer.first?_visible] at hfirst
  have hstart := first?_isStart hfirst
  have hstart' : lexeme <+: trim l'.rest := h ▸ hstart
  refine ⟨t', _, hnext', hkind, htext, ?_⟩
  simp only [Alike, advance, skipBlanks]
  rw [trim_drop_visible hstart, trim_drop_visible hstart', show trim l.rest = _ from h]

end Next

/-- Lexers related step by step. They find the same tokens, and both find none if the first of them
finds none and is live afterwards. A lexer that finds a token was live. -/
structure Simulation (R : Lexer → Lexer → Prop) (Live : Lexer → Prop) : Prop where
  found {l l' m : Lexer} {accepted : List TokenKind} {t : Token} (h : R l l')
    (hnext : l.next accepted = (some t, m)) (haccepted : .endOfInput ∉ accepted) :
    ∃ t' m', l'.next accepted = (some t', m') ∧ t'.kind = t.kind ∧ t'.text = t.text ∧ R m m'
  missing {l l' m : Lexer} {accepted : List TokenKind} (h : R l l')
    (hnext : l.next accepted = (none, m)) (hm : Live m) :
    ∃ m', l'.next accepted = (none, m') ∧ R m m'
  live {l m : Lexer} {accepted : List TokenKind} {t : Token}
    (hnext : l.next accepted = (some t, m)) (haccepted : .endOfInput ∉ accepted) : Live l

theorem Alike.simulation : Simulation Alike fun _ ↦ True where
  found h hnext _ := h.next_some hnext
  missing h hnext _ := h.next_none hnext
  live _ _ := trivial

end Lexer

namespace Predicate

open Lexer

theorem readExpression_eq (l : Lexer) : readExpression l =
    match l.next [.name, .openParen] with
    | (none, l) => .error (mismatch .name l)
    | (some token, l₁) =>
      if token.kind = .openParen then
        match readExpression l₁ with
        | .error m => .error m
        | .ok (inner, l₂) =>
          match l₂.next [.closeParen] with
          | (none, l) => .error (mismatch .closeParen l)
          | (some _, l₃) => .ok (inner, l₃)
      else
        match l₁.next [.connective, .comparison] with
        | (none, l₂) => .ok (.atom token.text, l₂)
        | (some operator, l₂) =>
          if operator.kind = .connective then
            match readExpression l₂ with
            | .error m => .error m
            | .ok (right, l₃) =>
              let connective := if operator.text = "and" then .and else .or
              .ok (.joined (.atom token.text) connective right, l₃)
          else
            match Comparison.ofSymbol? operator.text with
            | none => .error ⟨.comparison, operator.offset, l₁.visible⟩
            | some comparison =>
              match l₂.next [.literal] with
              | (none, l) => .error (mismatch .literal l)
              | (some literal, l₃) => .ok (.compared token.text comparison literal.text, l₃) := by
  rw [readExpression]
  split
  · simp only [*]
  · simp only [*]
    split
    · rfl
    · split
      · simp only [*]
      · simp only [*]
        rfl

theorem readExpression_simulated {R : Lexer → Lexer → Prop} {Live : Lexer → Prop}
    (hR : Simulation R Live) {l l' m : Lexer} {p : Predicate} (h : R l l')
    (hread : readExpression l = .ok (p, m)) (hm : Live m) :
    ∃ m', readExpression l' = .ok (p, m') ∧ R m m' := by
  fun_induction readExpression l generalizing l' p m with
  | case1 | case2 | case3 | case6 | case8 | case9 => cases hread
  | case4 l token l₁ hopen hkind inner l₂ hinner t l₃ hclose ih =>
    cases hread
    obtain ⟨token', l₁', hopen', hkind', -, h₁⟩ := hR.found h hopen (by decide)
    obtain ⟨l₂', hinner', h₂⟩ := ih h₁ hinner (hR.live hclose (by decide))
    obtain ⟨t', l₃', hclose', -, -, h₃⟩ := hR.found h₂ hclose (by decide)
    refine ⟨l₃', ?_, h₃⟩
    rw [readExpression_eq]
    simp only [hopen', hkind', hkind, if_true, hinner', hclose']
  | case5 l token l₁ hname hkind l₂ hnone =>
    cases hread
    obtain ⟨token', l₁', hname', hkind', htext, h₁⟩ := hR.found h hname (by decide)
    obtain ⟨l₂', hnone', h₂⟩ := hR.missing h₁ hnone hm
    refine ⟨l₂', ?_, h₂⟩
    rw [readExpression_eq]
    simp only [hname', hkind', hkind, if_false, hnone', htext]
  | case7 l token l₁ hname hkind operator l₂ hoperator hconnective connective right l₃ hright =>
    rename_i ih
    cases hread
    obtain ⟨token', l₁', hname', hkind', htext, h₁⟩ := hR.found h hname (by decide)
    obtain ⟨operator', l₂', hoperator', hconnective', hsymbol, h₂⟩ :=
      hR.found h₁ hoperator (by decide)
    obtain ⟨l₃', hright', h₃⟩ := ih h₂ hright hm
    refine ⟨l₃', ?_, h₃⟩
    rw [readExpression_eq]
    simp only [hname', hkind', hkind, if_false, hoperator', hconnective', hconnective, if_true,
      hright', htext, hsymbol]
    rfl
  | case10 l token l₁ hname hkind operator l₂ hoperator hconnective comparison hsymbol literal l₃
      hliteral =>
    cases hread
    obtain ⟨token', l₁', hname', hkind', htext, h₁⟩ := hR.found h hname (by decide)
    obtain ⟨operator', l₂', hoperator', hconnective', hsymbol', h₂⟩ :=
      hR.found h₁ hoperator (by decide)
    obtain ⟨literal', l₃', hliteral', -, hvalue, h₃⟩ := hR.found h₂ hliteral (by decide)
    refine ⟨l₃', ?_, h₃⟩
    rw [readExpression_eq]
    simp only [hname', hkind', hkind, if_false, hoperator', hconnective', hconnective, hsymbol',
      hsymbol, hliteral', htext, hvalue]

theorem read_of_trim_eq {s s' : List Char} {p : Predicate} (h : Text.trim s = Text.trim s')
    (hread : read s = .ok p) : read s' = .ok p := by
  unfold read at hread ⊢
  split at hread
  · cases hread
  · rename_i q l hl
    have hstart : (Lexer.start s).Alike (.start s') := h
    obtain ⟨l', hl', halike⟩ := readExpression_simulated Alike.simulation hstart hl trivial
    rw [hl']
    dsimp only
    split at hread
    · cases hread
    · rename_i t m ht
      cases hread
      obtain ⟨t', m', ht', -⟩ := halike.next_some ht
      rw [ht']

theorem parse_trimString (source : String) (p : Predicate) :
    parse (Text.trimString source) = .ok p ↔ parse source = .ok p := by
  have hread {s : String} : parse s = .ok p ↔ read s.toList = .ok p := by
    unfold parse
    cases read s.toList <;> simp
  have htrim : Text.trim (Text.trimString source).toList = Text.trim source.toList := by
    rw [Text.trimString, String.toList_ofList, Text.trim_trim]
  rw [hread, hread]
  exact ⟨read_of_trim_eq htrim, read_of_trim_eq htrim.symm⟩

end Predicate

end Lading
