import Lading.Predicate.Context
import Lading.Predicate.Reader

namespace Lading

def Context.compare (c : Context) (name : String) (comparison : Comparison) (literal : String) :
    Except EvalReason Bool := do
  let live ← (c.get name).mapError (·.reason)
  let other ← c.coerce live.kind literal
  match live.compare? other with
  | some order => return comparison.holds order
  | none => throw (.incomparable live.kind other.kind)

def Context.fail (c : Context) (e : EvalError) : Except EvalError Bool × Context :=
  if c.strict then (.error e, c) else (.ok false, { c with errors := c.errors ++ [e] })

def Connective.apply : Connective → Bool → Bool → Bool
  | .and, a, b => a && b
  | .or, a, b => a || b

def Predicate.eval (p : Predicate) (c : Context) : Except EvalError Bool × Context :=
  match p with
  | .atom name => (.ok (c.isSet name), c)
  | .compared name comparison literal =>
    match c.compare name comparison literal with
    | .ok answer => (.ok answer, c)
    | .error reason => c.fail ⟨toString p, reason⟩
  | .joined left connective right =>
    -- The right side is evaluated in any case, so that every comparison without an answer is met.
    match left.eval c with
    | (.error e, c) => (.error e, c)
    | (.ok a, c) =>
      match right.eval c with
      | (.error e, c) => (.error e, c)
      | (.ok b, c) => (.ok (connective.apply a b), c)

end Lading
