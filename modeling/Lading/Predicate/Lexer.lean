import Lading.Text.Blank
import Lading.Predicate.Basic

namespace Lading

inductive TokenKind
  | openParen | closeParen | connective | comparison | name | literal | endOfInput
deriving DecidableEq, Repr

namespace TokenKind

/-- All kinds, in the order in which they are tried. -/
def all : List TokenKind :=
  [.endOfInput, .openParen, .closeParen, .connective, .comparison, .name, .literal]

def description : TokenKind → String
  | .openParen => "'('"
  | .closeParen => "')'"
  | .connective => "'and' or 'or'"
  | .comparison => "comparison operator"
  | .name => "variable name"
  | .literal => "value"
  | .endOfInput => "end of input"

end TokenKind

structure Token where
  kind : TokenKind
  text : String
  offset : Nat
deriving DecidableEq, Repr

structure Lexer where
  offset : Nat
  rest : List Char
deriving DecidableEq, Repr

namespace Lexer

def start (source : List Char) : Lexer := ⟨0, source⟩

def visible (l : Lexer) : List Char := Text.trimStart l.rest

def isLiteralChar (c : Char) : Bool :=
  Text.isGraphic c && !(c == '(' || c == ')' || c == '<' || c == '>' || c == '=' || c == '!')

/-- The word is at the start of the text and is not continued by a letter or digit. -/
def startsWithWord (word s : List Char) : Bool :=
  match Text.after? word s with
  | some rest => !rest.head?.any Char.isAlphanum
  | none => false

def run? (p : Char → Bool) (s : List Char) : Option (List Char) :=
  let run := s.takeWhile p
  if run = [] then none else some run

def lexeme? (kind : TokenKind) (s : List Char) : Option (List Char) :=
  match kind with
  | .endOfInput => if s = [] then some [] else none
  | .openParen => if s.head? = some '(' then some ['('] else none
  | .closeParen => if s.head? = some ')' then some [')'] else none
  | .connective =>
    ([Connective.and, .or].map (·.symbol.toList)).find? (startsWithWord · s)
  | .comparison => (Comparison.all.map (·.symbol.toList)).find? (·.isPrefixOf s)
  | .name => run? Char.isAlphanum s
  | .literal => run? isLiteralChar s

def skipBlanks (l : Lexer) : Lexer :=
  ⟨l.offset + Text.byteLength (l.rest.takeWhile Text.isBlank), l.visible⟩

def advance (l : Lexer) (lexeme : List Char) : Lexer :=
  ⟨l.offset + Text.byteLength lexeme, l.rest.drop lexeme.length⟩

def first? (accepted : List TokenKind) (s : List Char) : Option (TokenKind × List Char) :=
  (TokenKind.all.filter (accepted.contains ·)).findSome? fun kind ↦
    (lexeme? kind s).map fun lexeme ↦ (kind, lexeme)

/-- Finds a token of one of the given kinds, so that `and` is a connective where one may follow and
a name elsewhere. Blanks are passed over in any case. -/
def next (accepted : List TokenKind) (l : Lexer) : Option Token × Lexer :=
  let l := l.skipBlanks
  match first? accepted l.rest with
  | none => (none, l)
  | some (kind, lexeme) => (some ⟨kind, String.ofList lexeme, l.offset⟩, l.advance lexeme)

theorem run?_eq_some {p : Char → Bool} {s lexeme : List Char} (h : run? p s = some lexeme) :
    lexeme = s.takeWhile p ∧ lexeme ≠ [] := by
  simp only [run?] at h
  split at h
  · cases h
  · cases h
    exact ⟨rfl, by assumption⟩

theorem lexeme?_isStart {kind : TokenKind} {s lexeme : List Char}
    (h : lexeme? kind s = some lexeme) : lexeme <+: s := by
  cases kind with
  | endOfInput => simp_all [lexeme?]
  | openParen | closeParen =>
    cases s with
    | nil => simp [lexeme?] at h
    | cons c s =>
      simp only [lexeme?, List.head?_cons, Option.some.injEq] at h
      split at h
      · cases h
        simp_all
      · cases h
  | connective =>
    have hs := List.find?_some h
    simp only [startsWithWord] at hs
    split at hs
    · rename_i rest hrest
      exact ⟨rest, (Text.after?_eq_some_iff.1 hrest).symm⟩
    · cases hs
  | comparison =>
    have hs := List.find?_some (p := (List.isPrefixOf · s)) h
    exact List.isPrefixOf_iff_prefix.1 hs
  | name | literal =>
    rw [(run?_eq_some h).1]
    exact List.takeWhile_prefix _

theorem lexeme?_ne_nil {kind : TokenKind} {s lexeme : List Char}
    (h : lexeme? kind s = some lexeme) (hk : kind ≠ .endOfInput) : lexeme ≠ [] := by
  cases kind with
  | endOfInput => exact absurd rfl hk
  | openParen | closeParen =>
    simp only [lexeme?] at h
    split at h
    · cases h
      simp
    · cases h
  | connective =>
    have hm := List.mem_of_find?_eq_some h
    rintro rfl
    revert hm
    decide
  | comparison =>
    have hm := List.mem_of_find?_eq_some h
    rintro rfl
    revert hm
    decide
  | name | literal => exact (run?_eq_some h).2

theorem next_eq_some {accepted : List TokenKind} {l l' : Lexer} {t : Token}
    (h : l.next accepted = (some t, l')) :
    ∃ lexeme, t.kind ∈ accepted ∧ lexeme? t.kind l.visible = some lexeme ∧
      t = ⟨t.kind, String.ofList lexeme, l.skipBlanks.offset⟩ ∧
      l' = l.skipBlanks.advance lexeme := by
  simp only [next, first?] at h
  split at h
  · simp at h
  · rename_i kind lexeme hf
    simp only [Prod.mk.injEq, Option.some.injEq] at h
    obtain ⟨rfl, rfl⟩ := h
    obtain ⟨k, hk, hm⟩ := List.exists_of_findSome?_eq_some hf
    simp only [Option.map_eq_some_iff, Prod.mk.injEq] at hm
    obtain ⟨_, hl, rfl, rfl⟩ := hm
    simp only [List.mem_filter, List.contains_iff_mem] at hk
    exact ⟨_, hk.2, hl, rfl, rfl⟩

theorem next_length_lt {accepted : List TokenKind} {l l' : Lexer} {t : Token}
    (h : l.next accepted = (some t, l')) (hk : t.kind ≠ .endOfInput) :
    l'.rest.length < l.rest.length := by
  obtain ⟨lexeme, -, hl, -, rfl⟩ := next_eq_some h
  have h₁ := List.length_pos_iff.2 (lexeme?_ne_nil hl hk)
  have h₂ := (lexeme?_isStart hl).length_le
  have h₃ := (List.dropWhile_suffix (l := l.rest) Text.isBlank).length_le
  simp only [advance, skipBlanks, visible, Text.trimStart, List.length_drop] at *
  omega

end Lexer

end Lading
