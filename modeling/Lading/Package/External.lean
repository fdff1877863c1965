import Lading.Package.Error
import Lading.Text.Blank

namespace Lading

/-- An external requirement. The specifier keeps its spelling; an empty one admits all versions. -/
structure ExternalRequirement where
  name : String
  extras : List String
  specifier : String
deriving DecidableEq, Repr

namespace ExternalRequirement

def text (r : ExternalRequirement) : List Char :=
  r.name.toList ++
    (if r.extras.isEmpty then []
      else '[' :: Text.joinWith ',' (r.extras.map String.toList) ++ [']']) ++
    r.specifier.toList

instance : ToString ExternalRequirement := ⟨fun r ↦ String.ofList r.text⟩

def isNameChar (c : Char) : Bool := c.isAlphanum || c == '-' || c == '_' || c == '.'

def isVersionChar (c : Char) : Bool :=
  c.isAlphanum || c == '.' || c == '*' || c == '+' || c == '!' || c == '-' || c == '_'

/-- The operators of specifier clauses; one that extends another comes first. -/
def operators : List (List Char) :=
  [['=', '=', '='], ['=', '='], ['!', '='], ['~', '='], ['<', '='], ['>', '='], ['<'], ['>']]

def clauseFault? (clause : List Char) : Option Fault :=
  match operators.findSome? (Text.after? · clause) with
  | none => some (.missingOperator (String.ofList clause))
  | some rest =>
    let version := Text.trim rest
    if version ≠ [] ∧ version.all isVersionChar then none
    else some (.invalidVersion (String.ofList clause))

def extraFault? (extra : List Char) : Option Fault :=
  if extra ≠ [] ∧ extra.all isNameChar then none
  else some (.invalidExtra (String.ofList extra))

def readExtras : List Char → Except Fault (List String × List Char)
  | '[' :: body =>
    match Text.cut ']' body with
    | none => .error .unclosedExtras
    | some (list, rest) =>
      let extras := (list.splitOn ',').map Text.trim
      match extras.findSome? extraFault? with
      | some fault => .error fault
      | none => .ok (extras.map String.ofList, Text.trimStart rest)
  | s => .ok ([], s)

def checkSpecifier (s : List Char) : Except Fault String :=
  if s = [] then .ok ""
  else
    match ((s.splitOn ',').map Text.trim).findSome? clauseFault? with
    | some fault => .error fault
    | none => .ok (String.ofList s)

def read (s : List Char) : Except Fault ExternalRequirement := do
  let name := s.takeWhile isNameChar
  if !name.head?.any Char.isAlphanum then throw .missingName
  let (extras, rest) ← readExtras (Text.trimStart (s.dropWhile isNameChar))
  let specifier ← checkSpecifier (Text.trimEnd rest)
  return { name := String.ofList name, extras, specifier }

def parse (input : String) : Except PackageError ExternalRequirement :=
  (read (Text.trim input.toList)).mapError (.external input)

end ExternalRequirement

end Lading
