import Lading.Text.Basic

namespace Lading

inductive ConditionKey
  | block (predicate : String)
  | inline (predicate field : String)
deriving DecidableEq, Repr

namespace ConditionKey

def predicate : ConditionKey → String
  | .block predicate => predicate
  | .inline predicate _ => predicate

def cutClose : List Char → Option (List Char × List Char)
  | ')' :: '.' :: s => some ([], s)
  | c :: s => (cutClose s).map fun (left, right) ↦ (c :: left, right)
  | [] => none

def opening : List Char := "cfg(".toList

/-- Recognizes a key with a predicate. The predicate of a field ends at the first `).`, that of a
block at the end of the key. -/
def recognize (key : String) : Option ConditionKey :=
  match Text.after? opening key.toList with
  | none => none
  | some body =>
    if body.getLast? = some ')' then some (.block (String.ofList body.dropLast))
    else
      match cutClose body with
      | some (_, []) | none => none
      | some (predicate, field) => some (.inline (String.ofList predicate) (String.ofList field))

end ConditionKey

end Lading
