import Lading.Package.Error
import Lading.Text.Blank

namespace Lading

/-- A package name. The scope is kept without its `@`. -/
structure PackageName where
  scope : Option String
  name : String
deriving DecidableEq, Repr

namespace PackageName

def isNameStart (c : Char) : Bool := c.isAlphanum || c == '_'

def isNameChar (c : Char) : Bool := isNameStart c || c == '-' || c == '.'

def isWord : List Char → Bool
  | [] => false
  | c :: cs => isNameStart c && cs.all isNameChar

def isScoped (n : PackageName) : Bool := n.scope.isSome

def text (n : PackageName) : List Char :=
  match n.scope with
  | none => n.name.toList
  | some scope => '@' :: scope.toList ++ '/' :: n.name.toList

def fullName (n : PackageName) : String := String.ofList n.text

def splitScope (s : List Char) : Except Fault (Option String × List Char) :=
  match s with
  | [] => .error .emptyReference
  | c :: body =>
    if c = '@' then
      match Text.cut '/' body with
      | none => .error .bareScope
      | some (scope, rest) =>
        if scope = [] then .error .emptyScope
        else if isWord scope then .ok (some (String.ofList scope), rest)
        else .error (.invalidScope (String.ofList scope))
    else .ok (none, s)

def checkName (s : List Char) : Except Fault String :=
  if s = [] then .error .missingName
  else if isWord s then .ok (String.ofList s)
  else .error (.invalidName (String.ofList s))

def read (s : List Char) : Except Fault PackageName := do
  let (scope, rest) ← splitScope s
  let name ← checkName rest
  return { scope, name }

def parse (input : String) : Except PackageError PackageName :=
  (read (Text.trim input.toList)).mapError (.name input)

end PackageName

end Lading
