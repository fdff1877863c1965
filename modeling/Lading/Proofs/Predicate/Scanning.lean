import Lading.Proofs.Predicate.Mismatch
import Mathlib.Data.String.Basic

namespace Lading

namespace Text

def slice (source : String) (i j : Nat) : String := String.Pos.Raw.extract source ⟨i⟩ ⟨j⟩

theorem slice_append (before s after : String) : slice (before ++ s ++ after) before.utf8ByteSize
    (before.utf8ByteSize + s.utf8ByteSize) = s := by
  have h := String.extract_of_valid before.toList s.toList after.toList
  simp only [String.ofList_append, String.ofList_toList, ← String.utf8ByteSize_ofList] at h
  exact h

theorem byteLength_toList (s : String) : byteLength s.toList = s.utf8ByteSize := by
  rw [← utf8ByteSize_ofList, String.ofList_toList]

end Text

open Text

namespace Lexer

def after (l : Lexer) (asked : List (List TokenKind)) : Lexer :=
  asked.foldl (fun l accepted ↦ (l.next accepted).2) l

variable {source : String} {accepted : List TokenKind} {l m : Lexer} {t : Token}

theorem offset_next (h : l.next accepted = (some t, m)) :
    m.offset = t.offset + t.text.utf8ByteSize := by
  obtain ⟨lexeme, -, -, ht, rfl⟩ := next_eq_some h
  rw [ht, utf8ByteSize_ofList]
  rfl

theorem next_places (h : l.next accepted = (some t, m)) : ∃ blanks, IsBlanks blanks ∧
    l.rest = blanks ++ t.text.toList ++ m.rest ∧ t.offset = l.offset + byteLength blanks := by
  obtain ⟨blanks, lexeme, hblanks, hl, -, htext, -⟩ := next_splits h
  have hlexeme : t.text.toList = lexeme := by rw [htext, String.toList_ofList]
  have hextent := extent_next h
  have hoffset := offset_next h
  rw [htext, utf8ByteSize_ofList] at hoffset
  rw [extent, extent, hl, byteLength_append, byteLength_append] at hextent
  exact ⟨blanks, hblanks, by rw [hl, hlexeme], by omega⟩

theorem next_none_places (h : l.next accepted = (none, m)) : ∃ blanks, IsBlanks blanks ∧
    l.rest = blanks ++ m.rest ∧ m.offset = l.offset + byteLength blanks := by
  obtain ⟨blanks, hblanks, hl⟩ := next_none_splits h
  have hextent := extent_next_none h
  rw [extent, extent, hl, byteLength_append] at hextent
  exact ⟨blanks, hblanks, hl, by omega⟩

theorem visible_next_none (h : l.next accepted = (none, m)) : m.visible = l.visible := by
  rw [eq_skipBlanks_of_next h]
  exact List.dropWhile_idempotent isBlank l.rest

theorem lexeme?_endOfInput_eq_some_iff {s lexeme : List Char} :
    lexeme? .endOfInput s = some lexeme ↔ s = [] ∧ lexeme = [] := by
  rw [lexeme?]
  split <;> simp [*, eq_comm]

theorem text_eq_empty_iff (h : l.next accepted = (some t, m)) :
    t.text = "" ↔ t.kind = .endOfInput := by
  obtain ⟨lexeme, -, hlexeme, ht, -⟩ := next_eq_some h
  have htext : t.text = String.ofList lexeme := congrArg Token.text ht
  rw [htext, String.ofList_eq_empty_iff]
  constructor
  · intro hnil
    by_contra hkind
    exact lexeme?_ne_nil hlexeme hkind hnil
  · intro hkind
    rw [hkind] at hlexeme
    exact (lexeme?_endOfInput_eq_some_iff.1 hlexeme).2

theorem isBlanks_of_endOfInput (h : l.next accepted = (some t, m)) (hkind : t.kind = .endOfInput) :
    IsBlanks l.rest := by
  obtain ⟨lexeme, -, hlexeme, -, -⟩ := next_eq_some h
  rw [hkind] at hlexeme
  exact visible_eq_nil_iff.1 (lexeme?_endOfInput_eq_some_iff.1 hlexeme).1

/-- The lexer stands between two characters of a source and has the text behind them left. -/
def StandsIn (l : Lexer) (source : String) : Prop :=
  ∃ before, source = before ++ String.ofList l.rest ∧ l.offset = before.utf8ByteSize

namespace StandsIn

theorem of_start (source : String) : (start source.toList).StandsIn source :=
  ⟨"", by simp [start], rfl⟩

variable (h : l.StandsIn source)
include h

theorem isValid : String.Pos.Raw.IsValid source ⟨l.offset⟩ := by
  obtain ⟨before, hsource, hoffset⟩ := h
  rw [hoffset]
  exact String.Pos.Raw.isValid_iff_exists_append.2 ⟨before, _, hsource, rfl⟩

theorem size_eq : source.utf8ByteSize = l.offset + byteLength l.rest := by
  obtain ⟨before, hsource, hoffset⟩ := h
  rw [hoffset, ← utf8ByteSize_ofList, hsource, String.utf8ByteSize_append]

theorem slice_eq {s rest : List Char} (hl : l.rest = s ++ rest) :
    slice source l.offset (l.offset + byteLength s) = String.ofList s := by
  obtain ⟨before, hsource, hoffset⟩ := h
  rw [hoffset, hsource, hl, String.ofList_append, ← String.append_assoc, ← utf8ByteSize_ofList]
  exact slice_append before (String.ofList s) (String.ofList rest)

theorem slice_rest : slice source l.offset source.utf8ByteSize = String.ofList l.rest := by
  rw [h.size_eq]
  exact h.slice_eq (List.append_nil _).symm

theorem move {s : List Char} (hl : l.rest = s ++ m.rest)
    (hoffset : m.offset = l.offset + byteLength s) : m.StandsIn source := by
  obtain ⟨before, rfl, hbefore⟩ := h
  refine ⟨before ++ String.ofList s, ?_, ?_⟩
  · rw [hl, String.ofList_append, String.append_assoc]
  · rw [hoffset, hbefore, String.utf8ByteSize_append, utf8ByteSize_ofList]

theorem before_token (hnext : l.next accepted = (some t, m)) :
    StandsIn ⟨t.offset, t.text.toList ++ m.rest⟩ source := by
  obtain ⟨blanks, -, hl, hoffset⟩ := next_places hnext
  exact h.move (hl.trans (List.append_assoc _ _ _)) hoffset

theorem next (accepted : List TokenKind) : (l.next accepted).2.StandsIn source := by
  rcases hnext : l.next accepted with ⟨_ | t, m⟩
  · obtain ⟨blanks, -, hl, hoffset⟩ := next_none_places hnext
    exact h.move hl hoffset
  · refine (h.before_token hnext).move rfl ?_
    rw [offset_next hnext, byteLength_toList]

theorem after (asked : List (List TokenKind)) : (l.after asked).StandsIn source := by
  induction asked generalizing l with
  | nil => exact h
  | cons accepted asked ih => exact ih (h.next accepted)

end StandsIn

theorem offset_lt_next (h : l.next accepted = (some t, m)) (haccepted : .endOfInput ∉ accepted) :
    l.offset < m.offset := by
  obtain ⟨blanks, -, -, ht⟩ := next_places h
  obtain ⟨lexeme, hkind, -, -, -⟩ := next_eq_some h
  have hne : t.text ≠ "" := (text_eq_empty_iff h).not.2 fun heq ↦ haccepted (heq ▸ hkind)
  have hsize : t.text.utf8ByteSize ≠ 0 := String.utf8ByteSize_eq_zero_iff.not.2 hne
  have hoffset := offset_next h
  omega

theorem offset_le_next (l : Lexer) (accepted : List TokenKind) :
    l.offset ≤ (l.next accepted).2.offset := by
  rcases hnext : l.next accepted with ⟨_ | t, m⟩
  · obtain ⟨blanks, -, -, hoffset⟩ := next_none_places hnext
    dsimp only
    omega
  · obtain ⟨blanks, -, -, ht⟩ := next_places hnext
    have hoffset := offset_next hnext
    dsimp only
    omega

theorem offset_le_after (l : Lexer) (asked : List (List TokenKind)) :
    l.offset ≤ (l.after asked).offset := by
  induction asked generalizing l with
  | nil => exact le_rfl
  | cons accepted asked ih => exact (l.offset_le_next accepted).trans (ih _)

structure Found (source : String) (accepted : List TokenKind) (l : Lexer) (t : Token) (m : Lexer) :
    Prop where
  kind_mem : t.kind ∈ accepted
  offset_le : l.offset ≤ t.offset
  isValid : String.Pos.Raw.IsValid source ⟨t.offset⟩
  isBlanks : IsBlanks (slice source l.offset t.offset).toList
  text_eq : t.text = slice source t.offset (t.offset + t.text.utf8ByteSize)
  offset_eq : m.offset = t.offset + t.text.utf8ByteSize
  empty_iff : t.text = "" ↔ t.kind = .endOfInput
  ends : t.kind = .endOfInput → IsBlanks (slice source l.offset source.utf8ByteSize).toList

structure Missed (source : String) (l m : Lexer) : Prop where
  offset_le : l.offset ≤ m.offset
  isBlanks : IsBlanks (slice source l.offset m.offset).toList
  visible_eq : m.visible = l.visible

/-- A lexer between two characters of its source, which only goes on from there. What it compares
and cuts off ends between two characters, too. -/
structure Scans (source : String) (l : Lexer) : Prop where
  offset_le : l.offset ≤ source.utf8ByteSize
  isValid : String.Pos.Raw.IsValid source ⟨l.offset⟩
  isValid_add : ∀ s, s <+: l.rest → String.Pos.Raw.IsValid source ⟨l.offset + byteLength s⟩
  rest_eq : String.ofList l.rest = slice source l.offset source.utf8ByteSize
  forward : ∀ asked, l.offset ≤ (l.after asked).offset
  found : ∀ accepted t m, l.next accepted = (some t, m) → Found source accepted l t m
  missed : ∀ accepted m, l.next accepted = (none, m) → Missed source l m

theorem StandsIn.found (h : l.StandsIn source) (hnext : l.next accepted = (some t, m)) :
    Found source accepted l t m := by
  obtain ⟨blanks, hblanks, hl, hoffset⟩ := next_places hnext
  obtain ⟨lexeme, hkind, -, -, -⟩ := next_eq_some hnext
  have ht := h.before_token hnext
  refine
    { kind_mem := hkind
      offset_le := by omega
      isValid := ht.isValid
      isBlanks := ?_
      text_eq := ?_
      offset_eq := offset_next hnext
      empty_iff := text_eq_empty_iff hnext
      ends := ?_ }
  · rw [hoffset, h.slice_eq (hl.trans (List.append_assoc _ _ _)), String.toList_ofList]
    exact hblanks
  · have hslice := ht.slice_eq rfl
    rw [byteLength_toList, String.ofList_toList] at hslice
    exact hslice.symm
  · intro hend
    rw [h.slice_rest, String.toList_ofList]
    exact isBlanks_of_endOfInput hnext hend

theorem StandsIn.missed (h : l.StandsIn source) (hnext : l.next accepted = (none, m)) :
    Missed source l m := by
  obtain ⟨blanks, hblanks, hl, hoffset⟩ := next_none_places hnext
  refine ⟨by omega, ?_, visible_next_none hnext⟩
  rw [hoffset, h.slice_eq hl, String.toList_ofList]
  exact hblanks

theorem StandsIn.scans (h : l.StandsIn source) : l.Scans source where
  offset_le := by
    have := h.size_eq
    omega
  isValid := h.isValid
  isValid_add s := by
    rintro ⟨rest, hrest⟩
    have hbehind : StandsIn ⟨l.offset + byteLength s, rest⟩ source := h.move hrest.symm rfl
    exact hbehind.isValid
  rest_eq := h.slice_rest.symm
  forward := l.offset_le_after
  found _ _ _ := h.found
  missed _ _ := h.missed

end Lexer

namespace Predicate

open Lexer

abbrev Reading := Except Mismatch (Predicate × Lexer)

/-- How far a reader of expressions comes without reading another one: it is done, or it goes on
with what an expression from `inner` on gives. -/
inductive Stage
  | finished (reading : Reading)
  | waits (inner : Lexer) (resume : Reading → Reading)

def Stage.finish (read : Lexer → Reading) : Stage → Reading
  | .finished reading => reading
  | .waits inner resume => resume (read inner)

def closeParen : Reading → Reading
  | .error m => .error m
  | .ok (inner, l) =>
    match l.next [.closeParen] with
    | (none, l) => .error (mismatch .closeParen l)
    | (some _, l) => .ok (inner, l)

def joinRight (name : String) (connective : Connective) : Reading → Reading
  | .error m => .error m
  | .ok (right, l) => .ok (.joined (.atom name) connective right, l)

def stage (l : Lexer) : Stage :=
  match l.next [.name, .openParen] with
  | (none, l) => .finished (.error (mismatch .name l))
  | (some token, l₁) =>
    if token.kind = .openParen then .waits l₁ closeParen
    else
      match l₁.next [.connective, .comparison] with
      | (none, l₂) => .finished (.ok (.atom token.text, l₂))
      | (some operator, l₂) =>
        if operator.kind = .connective then
          .waits l₂ (joinRight token.text (if operator.text = "and" then .and else .or))
        else
          match Comparison.ofSymbol? operator.text with
          | none => .finished (.error ⟨.comparison, operator.offset, l₁.visible⟩)
          | some comparison =>
            match l₂.next [.literal] with
            | (none, l) => .finished (.error (mismatch .literal l))
            | (some literal, l₃) =>
              .finished (.ok (.compared token.text comparison literal.text, l₃))

/-- Reading with expressions nested less than `depth` deep, and no result if they go deeper. -/
def readWithin : Nat → Lexer → Option Reading
  | 0, _ => none
  | depth + 1, l =>
    match stage l with
    | .finished reading => some reading
    | .waits inner resume => (readWithin depth inner).map resume

variable {l inner : Lexer} {resume : Reading → Reading}

theorem readExpression_eq_finish (l : Lexer) :
    readExpression l = (stage l).finish readExpression := by
  rw [readExpression_eq, stage]
  rcases l.next [.name, .openParen] with ⟨_ | token, l₁⟩
  · rfl
  dsimp only
  by_cases hkind : token.kind = .openParen
  · rw [if_pos hkind, if_pos hkind]
    rfl
  rw [if_neg hkind, if_neg hkind]
  rcases l₁.next [.connective, .comparison] with ⟨_ | operator, l₂⟩
  · rfl
  dsimp only
  by_cases hconnective : operator.kind = .connective
  · rw [if_pos hconnective, if_pos hconnective]
    rfl
  rw [if_neg hconnective, if_neg hconnective]
  cases Comparison.ofSymbol? operator.text with
  | none => rfl
  | some comparison =>
    dsimp only
    rcases l₂.next [.literal] with ⟨_ | literal, l₃⟩ <;> rfl

theorem offset_lt_of_stage (h : stage l = .waits inner resume) :
    l.offset < inner.offset ∧ ∃ asked, inner = l.after asked := by
  unfold stage at h
  split at h
  · cases h
  rename_i token l₁ htoken
  have hl₁ : l.offset < l₁.offset := offset_lt_next htoken (by decide)
  split at h
  · cases h
    exact ⟨hl₁, [[.name, .openParen]], by simp [after, htoken]⟩
  split at h
  · cases h
  rename_i operator l₂ hoperator
  have hl₂ : l₁.offset < l₂.offset := offset_lt_next hoperator (by decide)
  split at h
  · cases h
    refine ⟨hl₁.trans hl₂, [[.name, .openParen], [.connective, .comparison]], ?_⟩
    simp [after, htoken, hoperator]
  · split at h
    · cases h
    · split at h <;> cases h

theorem readWithin_eq_some {source : String} {depth : Nat} (h : l.StandsIn source)
    (hdepth : source.utf8ByteSize - l.offset < depth) :
    readWithin depth l = some (readExpression l) := by
  -- An expression inside begins further on, so that one level less is enough for it.
  induction depth generalizing l with
  | zero => omega
  | succ depth ih =>
    rw [readExpression_eq_finish, readWithin]
    cases hstage : stage l with
    | finished reading => rfl
    | waits inner resume =>
      obtain ⟨hlt, asked, rfl⟩ := offset_lt_of_stage hstage
      have hinner := h.after asked
      have hsize := hinner.size_eq
      simp only [ih hinner (by omega), Option.map_some, Stage.finish]

/-- A reader at `l` comes to an end: it reads on behind `l` only, at places where the lexer comes
to, and expressions are nested no deeper than there are bytes left. -/
structure Ends (source : String) (l : Lexer) : Prop where
  unfolds : readExpression l = (stage l).finish readExpression
  consumes : ∀ inner resume, stage l = .waits inner resume →
    l.offset < inner.offset ∧ ∃ asked, inner = l.after asked
  within : ∀ depth, source.utf8ByteSize - l.offset < depth →
    readWithin depth l = some (readExpression l)

/-- However a lexer of a source was asked, it stands between two characters and goes on from there
only, over blanks and tokens; so does a reader of expressions, which comes to an end. -/
theorem scans_source (source : String) (asked : List (List TokenKind)) :
    Scans source ((start source.toList).after asked) ∧
      Ends source ((start source.toList).after asked) := by
  have h := (StandsIn.of_start source).after asked
  exact ⟨h.scans, readExpression_eq_finish _, fun _ _ ↦ offset_lt_of_stage,
    fun _ ↦ readWithin_eq_some h⟩

theorem scans_source_between_blanks :
    (start "\u3000(\u00a0é".toList).next [.literal, .openParen] =
      (some ⟨.openParen, "(", 3⟩, ⟨4, ['\u00a0', 'é']⟩) ∧
    Found "\u3000(\u00a0é" [.literal, .openParen] (start "\u3000(\u00a0é".toList)
      ⟨.openParen, "(", 3⟩ ⟨4, ['\u00a0', 'é']⟩ ∧
    Lexer.next [.name, .openParen] ⟨4, ['\u00a0', 'é']⟩ = (none, ⟨6, ['é']⟩) ∧
    Missed "\u3000(\u00a0é" ⟨4, ['\u00a0', 'é']⟩ ⟨6, ['é']⟩ ∧
    readExpression (start "\u3000(\u00a0é".toList) = .error ⟨.name, 6, ['é']⟩ := by
  obtain ⟨hscans, hends⟩ := scans_source "\u3000(\u00a0é" []
  obtain ⟨hbehind, -⟩ := scans_source "\u3000(\u00a0é" [[.literal, .openParen]]
  have hopen : (start "\u3000(\u00a0é".toList).next [.literal, .openParen] =
      (some ⟨.openParen, "(", 3⟩, ⟨4, ['\u00a0', 'é']⟩) := by
    decide +kernel
  have hnone : Lexer.next [.name, .openParen] ⟨4, ['\u00a0', 'é']⟩ = (none, ⟨6, ['é']⟩) := by
    decide +kernel
  have hread : readWithin 9 (start "\u3000(\u00a0é".toList) = some (.error ⟨.name, 6, ['é']⟩) := by
    decide +kernel
  have hafter : (start "\u3000(\u00a0é".toList).after [[.literal, .openParen]] =
      ⟨4, ['\u00a0', 'é']⟩ := congrArg Prod.snd hopen
  rw [hafter] at hbehind
  have hwithin := hends.within 9 (by decide +kernel)
  exact ⟨hopen, hscans.found _ _ _ hopen, hnone, hbehind.missed _ _ hnone,
    Option.some.inj (hwithin.symm.trans hread)⟩

end Predicate

end Lading
