import Lading.Version.Basic
import Lading.Decimal.Shortest

namespace Lading

inductive ValueKind
  | bool | int | float | str | version
deriving DecidableEq, Repr

def ValueKind.name : ValueKind → String
  | .bool => "bool"
  | .int => "int"
  | .float => "float"
  | .str => "str"
  | .version => "version"

inductive Value
  | bool (value : Bool)
  | int (value : Int)
  | float (value : Float)
  | str (value : String)
  | version (value : Version)

namespace Value

def kind : Value → ValueKind
  | .bool _ => .bool
  | .int _ => .int
  | .float _ => .float
  | .str _ => .str
  | .version _ => .version

def isTruthy : Value → Bool
  | .bool b => b
  | .int n => n != 0
  | .float x => x != 0.0
  | .str s => !s.isEmpty
  | .version _ => true

def display : Value → String
  | .bool b => if b then "true" else "false"
  | .int n => String.ofList (Text.integer n)
  | .float x => Decimal.showPlain x
  | .str s => s
  | .version v => toString v

def compareFloat? (x y : Float) : Option Ordering :=
  if x < y then some .lt
  else if x == y then some .eq
  else if y < x then some .gt
  else none

/-- The order of two values of one kind. Versions are told apart by build metadata here. -/
def compare? : Value → Value → Option Ordering
  | .bool a, .bool b => some (compare a b)
  | .int a, .int b => some (compare a b)
  | .float a, .float b => compareFloat? a b
  | .str a, .str b => some (compare a b)
  | .version a, .version b => some (a.compareFull b)
  | _, _ => none

end Value

end Lading
