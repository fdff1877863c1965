import Lading.Predicate.Lexer

namespace Lading

/-- The place where a text stops being a predicate: what is left there, its offset, and the kind
that was wanted. -/
structure Predicate.Mismatch where
  expected : TokenKind
  offset : Nat
  rest : List Char
deriving DecidableEq, Repr

namespace Predicate

def mismatch (expected : TokenKind) (l : Lexer) : Mismatch :=
  let l := l.skipBlanks
  ⟨expected, l.offset, l.rest⟩

def Mismatch.found (m : Mismatch) : String :=
  if m.rest = [] then "end of input" else s!"'{String.ofList m.rest}'"

/-- Reads by the grammar `"(" p ")" | variable (connective p | comparison literal)?`. Connectives
group to the right and none binds closer than the other. -/
def readExpression (l : Lexer) : Except Mismatch (Predicate × Lexer) :=
  match _h : l.next [.name, .openParen] with
  | (none, l) => .error (mismatch .name l)
  | (some token, l₁) =>
    if _hk : token.kind = .openParen then
      match readExpression l₁ with
      | .error m => .error m
      | .ok (inner, l₂) =>
        match l₂.next [.closeParen] with
        | (none, l) => .error (mismatch .closeParen l)
        | (some _, l₃) => .ok (inner, l₃)
    else
      match _h₁ : l₁.next [.connective, .comparison] with
      | (none, l₂) => .ok (.atom token.text, l₂)
      | (some operator, l₂) =>
        if _hc : operator.kind = .connective then
          let connective := if operator.text = "and" then Connective.and else .or
          match readExpression l₂ with
          | .error m => .error m
          | .ok (right, l₃) => .ok (.joined (.atom token.text) connective right, l₃)
        else
          match Comparison.ofSymbol? operator.text with
          | none => .error ⟨.comparison, operator.offset, l₁.visible⟩
          | some comparison =>
            match l₂.next [.literal] with
            | (none, l) => .error (mismatch .literal l)
            | (some literal, l₃) => .ok (.compared token.text comparison literal.text, l₃)
termination_by l.rest.length
decreasing_by
  · exact Lexer.next_length_lt _h (by simp [_hk])
  · have h₂ := Lexer.next_length_lt _h₁ (by simp [_hc])
    have h₃ : token.kind ≠ .endOfInput := by
      obtain ⟨_, hm, -⟩ := Lexer.next_eq_some _h
      rintro he
      simp [he] at hm
    have h₄ := Lexer.next_length_lt _h h₃
    omega

def read (source : List Char) : Except Mismatch Predicate :=
  match readExpression (.start source) with
  | .error m => .error m
  | .ok (p, l) =>
    match l.next [.endOfInput] with
    | (none, l) => .error (mismatch .endOfInput l)
    | (some _, _) => .ok p

end Predicate

end Lading
