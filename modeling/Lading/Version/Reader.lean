import Lading.Version.Basic
import Lading.Package.Error
import Lading.Text.Blank

namespace Lading.Version

def isIdentifierChar (c : Char) : Bool := c.isAlphanum || c == '-'

def readNumber (part : Part) (s : List Char) : Except Fault (UInt64 × List Char) :=
  let digits := s.takeWhile Char.isDigit
  let rest := s.dropWhile Char.isDigit
  match digits with
  | [] =>
    match rest with
    | [] => .error (.unexpectedEnd part)
    | c :: _ => .error (.unexpectedChar c part)
  | d :: more =>
    if d = '0' ∧ more ≠ [] then .error (.leadingZero part)
    else if Text.ofDecimal digits < UInt64.size then
      .ok (UInt64.ofNat (Text.ofDecimal digits), rest)
    else .error (.tooLarge part)

def readDot (part : Part) : List Char → Except Fault (List Char)
  | [] => .error (.unexpectedEnd part)
  | c :: rest => if c = '.' then .ok rest else .error (.unexpectedAfter c part)

def segmentFault? (part : Part) (segment : List Char) : Option Fault :=
  if segment = [] then some (.emptySegment part)
  else if part = .preRelease ∧ segment.all Char.isDigit ∧ 1 < segment.length ∧
      segment.head? = some '0' then some (.leadingZero part)
  else none

def readIdentifiers (part : Part) (s : List Char) : Except Fault (List String × List Char) :=
  let isBody := fun c ↦ isIdentifierChar c || c == '.'
  let segments := (s.takeWhile isBody).splitOn '.'
  match segments.findSome? (segmentFault? part) with
  | some fault => .error fault
  | none => .ok (segments.map String.ofList, s.dropWhile isBody)

/-- Reads the part that `mark` opens, if it is there. The third component is the last part begun,
where `last` was the last one before. -/
def readSuffix (mark : Char) (part last : Part) :
    List Char → Except Fault (List String × List Char × Part)
  | [] => .ok ([], [], last)
  | c :: rest =>
    if c = mark then do
      let (identifiers, rest) ← readIdentifiers part rest
      return (identifiers, rest, part)
    else .ok ([], c :: rest, last)

def read (s : List Char) : Except Fault Version := do
  if s = [] then throw .empty
  let (major, s) ← readNumber .major s
  let s ← readDot .major s
  let (minor, s) ← readNumber .minor s
  let s ← readDot .minor s
  let (patch, s) ← readNumber .patch s
  let (preRelease, s, last) ← readSuffix '-' .preRelease .patch s
  let (build, s, last) ← readSuffix '+' .build last s
  match s with
  | [] => return { major, minor, patch, preRelease, build }
  | c :: _ => throw (.unexpectedAfter c last)

def parse (input : String) : Except PackageError Version :=
  (read (Text.trim input.toList)).mapError (.version input)

end Lading.Version
