import Lading.Text.Quoted

namespace Lading

inductive Connective
  | and | or
deriving DecidableEq, Repr

def Connective.symbol : Connective → String
  | .and => "and"
  | .or => "or"

inductive Comparison
  | lt | gt | le | ge | eq | ne
deriving DecidableEq, Repr

namespace Comparison

def symbol : Comparison → String
  | .lt => "<"
  | .gt => ">"
  | .le => "<="
  | .ge => ">="
  | .eq => "=="
  | .ne => "!="

/-- All comparisons; one whose symbol extends another's comes first. -/
def all : List Comparison := [.eq, .ne, .le, .ge, .lt, .gt]

def ofSymbol? (symbol : String) : Option Comparison := all.find? (·.symbol == symbol)

def holds (c : Comparison) (order : Ordering) : Bool :=
  match c with
  | .lt => order == .lt
  | .gt => order == .gt
  | .le => order != .gt
  | .ge => order != .lt
  | .eq => order == .eq
  | .ne => order != .eq

end Comparison

/-- A predicate. An atom holds if its variable is set to a value that counts as true. -/
inductive Predicate
  | atom (name : String)
  | joined (left : Predicate) (connective : Connective) (right : Predicate)
  | compared (name : String) (comparison : Comparison) (literal : String)
deriving DecidableEq, Repr

namespace Predicate

def text : Predicate → List Char
  | .atom name => name.toList
  | .joined left connective right =>
    left.text ++ ' ' :: connective.symbol.toList ++ ' ' :: right.text
  | .compared name comparison literal =>
    name.toList ++ ' ' :: comparison.symbol.toList ++ ' ' :: literal.toList

instance : ToString Predicate := ⟨fun p ↦ String.ofList p.text⟩

def indentation (depth : Nat) : String := String.ofList (List.replicate (2 * depth) ' ')

def drawing (depth : Nat) : Predicate → String
  | .atom name => s!"Var(name={Text.quoteString name})"
  | .compared name comparison literal =>
    s!"Compare(name={Text.quoteString name}, op={Text.quoteString comparison.symbol}, "
      ++ s!"value={Text.quoteString literal})"
  | .joined left connective right =>
    let inner := indentation (depth + 1)
    s!"Logop(\n{inner}op={Text.quoteString connective.symbol},\n"
      ++ s!"{inner}left={left.drawing (depth + 1)},\n"
      ++ s!"{inner}right={right.drawing (depth + 1)}\n{indentation depth})"

end Predicate

end Lading
