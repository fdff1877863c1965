import Lading.Text.Basic

namespace Lading.FilePath

def isAbsolute (path : String) : Bool := path.toList.head? == some '/'

def join (base path : String) : String :=
  if isAbsolute path then path
  else if base = "" ∨ base.toList.getLast? = some '/' then base ++ path
  else base ++ "/" ++ path

/-- The start of a path that going up does not remove: a slash, or a dot that is a component. -/
def splitAnchor : List Char → List Char × List Char
  | '/' :: s => (['/'], s)
  | ['.'] => (['.'], [])
  | '.' :: '/' :: s => (['.'], '/' :: s)
  | s => ([], s)

def trimComponents (components : List (List Char)) : List (List Char) :=
  (components.reverse.dropWhile fun c ↦ c == [] || c == ['.']).reverse

def parent? (path : String) : Option String :=
  let (anchor, body) := splitAnchor path.toList
  match trimComponents (body.splitOn '/') with
  | [] => if anchor = ['.'] then some "" else none
  | components =>
    some (String.ofList (anchor ++ Text.joinWith '/' (trimComponents components.dropLast)))

end Lading.FilePath
