import Lading.Text.Basic

namespace Lading.ModulePath

def segments (path : List Char) : List (List Char) := path.splitOn '/'

def isOrdinary (segment : List Char) : Bool :=
  segment != [] && segment != ['.'] && segment != ['.', '.']

/-- Follows segments down from a place, which is a list of segments with the last one first. -/
def descend (place : List (List Char)) : List (List Char) → Option (List (List Char))
  | [] => some place
  | segment :: rest =>
    if segment = [] ∨ segment = ['.'] then descend place rest
    else if segment = ['.', '.'] then
      match place with
      | [] => none
      | _ :: place => descend place rest
    else descend (segment :: place) rest

def resolve (path : List Char) : Option (List (List Char)) :=
  (descend [] (segments path)).map List.reverse

def normalize (path : String) : Option String :=
  (resolve path.toList).map fun segments ↦ String.ofList (Text.joinWith '/' segments)

def directory (path : String) : String :=
  String.ofList (Text.joinWith '/' (segments path.toList).dropLast)

def join (directory path : String) : Option String :=
  if path.toList.head? = some '/' ∨ directory = "" then normalize path
  else normalize (directory ++ "/" ++ path)

end Lading.ModulePath
