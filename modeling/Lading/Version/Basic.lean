import Lading.Text.Basic

namespace Lading

/-- A version. A part after `-` or `+` is kept as its dot-separated identifiers, so the empty list
stands for a part that is absent. -/
structure Version where
  major : UInt64
  minor : UInt64
  patch : UInt64
  preRelease : List String
  build : List String
deriving DecidableEq, Repr

namespace Version

def release (major minor patch : UInt64) : Version := ⟨major, minor, patch, [], []⟩

def isPreRelease (v : Version) : Bool := !v.preRelease.isEmpty

def dotted (identifiers : List String) : List Char :=
  Text.joinWith '.' (identifiers.map String.toList)

def suffix (mark : Char) (identifiers : List String) : List Char :=
  if identifiers.isEmpty then [] else mark :: dotted identifiers

def text (v : Version) : List Char :=
  Text.decimal v.major.toNat ++ '.' :: Text.decimal v.minor.toNat ++
    '.' :: Text.decimal v.patch.toNat ++ suffix '-' v.preRelease ++ suffix '+' v.build

instance : ToString Version := ⟨fun v ↦ String.ofList v.text⟩

def isNumeric (identifier : String) : Bool := identifier.toList.all Char.isDigit

/-- Identifiers of digits alone come first and are ordered as numbers without leading zeros. -/
def compareIdentifier (a b : String) : Ordering :=
  match isNumeric a, isNumeric b with
  | true, true => (compare a.length b.length).then (compare a b)
  | true, false => .lt
  | false, true => .gt
  | false, false => compare a b

def comparePreRelease : List String → List String → Ordering
  | [], [] => .eq
  | [], _ :: _ => .gt
  | _ :: _, [] => .lt
  | a, b => List.compareLex compareIdentifier a b

/-- Build identifiers may have leading zeros; they count only between equal numbers. -/
def compareBuildIdentifier (a b : String) : Ordering :=
  match isNumeric a, isNumeric b with
  | true, true =>
    let a' := a.toList.dropWhile (· == '0')
    let b' := b.toList.dropWhile (· == '0')
    (compare a'.length b'.length).then
      ((List.compareLex compare a' b').then (compare a.length b.length))
  | true, false => .lt
  | false, true => .gt
  | false, false => compare a b

def compareBuild (a b : List String) : Ordering := List.compareLex compareBuildIdentifier a b

def compareRelease (a b : Version) : Ordering :=
  (compare a.major b.major).then ((compare a.minor b.minor).then (compare a.patch b.patch))

def precedence (a b : Version) : Ordering :=
  (compareRelease a b).then (comparePreRelease a.preRelease b.preRelease)

def compareFull (a b : Version) : Ordering :=
  (precedence a b).then (compareBuild a.build b.build)

end Version

end Lading
