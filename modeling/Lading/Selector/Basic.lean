import Lading.Version.Basic

namespace Lading

inductive Operator
  | exact | notEqual | less | lessEq | greater | greaterEq | tilde | caret
deriving DecidableEq, Repr

namespace Operator

def symbol : Operator → String
  | .exact => ""
  | .notEqual => "!="
  | .less => "<"
  | .lessEq => "<="
  | .greater => ">"
  | .greaterEq => ">="
  | .tilde => "~"
  | .caret => "^"

/-- All spellings of operators; one that extends another comes first. -/
def spellings : List (List Char × Operator) :=
  [(['>', '='], .greaterEq), (['<', '='], .lessEq), (['=', '='], .exact), (['!', '='], .notEqual),
    (['>'], .greater), (['<'], .less), (['='], .exact), (['~'], .tilde), (['^'], .caret)]

end Operator

structure Comparator where
  operator : Operator
  version : Version
deriving DecidableEq, Repr

namespace Comparator

def next? (n : UInt64) : Option UInt64 :=
  if n.toNat + 1 < UInt64.size then some (n + 1) else none

/-- The first version after the release line of `~` and `^`. A line that ends with the last number
has none. -/
def upperBound? (c : Comparator) : Option Version :=
  let v := c.version
  match c.operator with
  | .tilde => (next? v.minor).map fun n ↦ .release v.major n 0
  | .caret =>
    if v.major ≠ 0 then (next? v.major).map fun n ↦ .release n 0 0
    else if v.minor ≠ 0 then (next? v.minor).map fun n ↦ .release 0 n 0
    else (next? v.patch).map fun n ↦ .release 0 0 n
  | _ => none

def accepts (c : Comparator) (v : Version) : Bool :=
  let order := v.precedence c.version
  match c.operator with
  | .exact => order == .eq
  | .notEqual => order != .eq
  | .less => order == .lt
  | .lessEq => order != .gt
  | .greater => order == .gt
  | .greaterEq => order != .lt
  | .tilde | .caret =>
    order != .lt && (match c.upperBound? with
      | some bound => v.precedence bound == .lt
      | none => true)

def admitsPreRelease (c : Comparator) (v : Version) : Bool :=
  c.version.isPreRelease && c.version.compareRelease v == .eq

def text (c : Comparator) : List Char := c.operator.symbol.toList ++ c.version.text

instance : ToString Comparator := ⟨fun c ↦ String.ofList c.text⟩

end Comparator

abbrev Group := List Comparator

namespace Group

/-- A pre-release is taken only where a clause names a pre-release of its three numbers. -/
def accepts (group : Group) (v : Version) : Bool :=
  group.isEmpty ||
    ((!v.isPreRelease || group.any (·.admitsPreRelease v)) && group.all (·.accepts v))

def text (group : Group) : List Char :=
  if group.isEmpty then ['*'] else Text.joinWith ' ' (group.map Comparator.text)

end Group

structure Selector where
  alternatives : List Group
deriving DecidableEq, Repr

namespace Selector

def any : Selector := ⟨[[]]⟩

def exact (v : Version) : Selector := ⟨[[⟨.exact, v⟩]]⟩

def isAny (s : Selector) : Bool := s.alternatives.any List.isEmpty

def accepts (s : Selector) (v : Version) : Bool := s.alternatives.any (·.accepts v)

/-- The highest of a list of versions, and the last of several in that place. -/
def lastHighest? (versions : List Version) : Option Version :=
  versions.foldl (fun best v ↦
    match best with
    | none => some v
    | some b => if b.precedence v == .gt then some b else some v) none

def best? (s : Selector) (candidates : List Version) : Option Version :=
  lastHighest? (candidates.filter s.accepts)

def text (s : Selector) : List Char :=
  [' ', '|', '|', ' '].intercalate (s.alternatives.map Group.text)

instance : ToString Selector := ⟨fun s ↦ String.ofList s.text⟩

end Selector

end Lading
