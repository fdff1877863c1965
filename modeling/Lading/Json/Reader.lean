import Lading.Json.Basic
import Lading.Decimal.Literal

namespace Lading.Json

structure Literal where
  negative : Bool
  whole : List Char
  fraction : Option (List Char)
  exponent : Option Int

/-- A document as it is written. A string is `none` if it holds half of a surrogate pair. -/
inductive Raw
  | null
  | bool (value : Bool)
  | number (literal : Literal)
  | string (value : Option String)
  | array (items : List Raw)
  | object (fields : List (Option String × Raw))

namespace Raw

def isSpace (c : Char) : Bool := c == ' ' || c == '\t' || c == '\n' || c == '\r'

def skipSpace (s : List Char) : List Char := s.dropWhile isSpace

def hexDigit? (c : Char) : Option Nat :=
  if c.isDigit then some (c.toNat - '0'.toNat)
  else if 'a' ≤ c ∧ c ≤ 'f' then some (c.toNat - 'a'.toNat + 10)
  else if 'A' ≤ c ∧ c ≤ 'F' then some (c.toNat - 'A'.toNat + 10)
  else none

def readUnit : List Char → Option (Nat × List Char)
  | a :: b :: c :: d :: s => do
    let a ← hexDigit? a
    let b ← hexDigit? b
    let c ← hexDigit? c
    let d ← hexDigit? d
    return (((a * 16 + b) * 16 + c) * 16 + d, s)
  | _ => none

def simpleEscape? (c : Char) : Option Char :=
  match c with
  | '"' => some '"'
  | '\\' => some '\\'
  | '/' => some '/'
  | 'b' => some '\x08'
  | 'f' => some '\x0c'
  | 'n' => some '\n'
  | 'r' => some '\r'
  | 't' => some '\t'
  | _ => none

def readUnits : List Char → Option (List (Nat ⊕ Char) × List Char)
  | [] => none
  | '"' :: s => some ([], s)
  | '\\' :: 'u' :: a :: b :: c :: d :: s => do
    let (unit, _) ← readUnit [a, b, c, d]
    let (units, s) ← readUnits s
    return (.inl unit :: units, s)
  | '\\' :: e :: s => do
    let c ← simpleEscape? e
    let (units, s) ← readUnits s
    return (.inr c :: units, s)
  | c :: s =>
    if c.toNat < 0x20 then none
    else do
      let (units, s) ← readUnits s
      return (.inr c :: units, s)

def isHigh (unit : Nat) : Bool := 0xd800 ≤ unit && unit < 0xdc00

def isLow (unit : Nat) : Bool := 0xdc00 ≤ unit && unit < 0xe000

def joinUnits : List (Nat ⊕ Char) → Option (List Char)
  | [] => some []
  | .inr c :: units => (joinUnits units).map (c :: ·)
  | [.inl unit] => if isHigh unit ∨ isLow unit then none else some [Char.ofNat unit]
  | .inl unit :: .inl low :: units =>
    if isHigh unit then
      if isLow low then
        (joinUnits units).map
          (Char.ofNat (0x10000 + (unit - 0xd800) * 0x400 + (low - 0xdc00)) :: ·)
      else none
    else if isLow unit then none
    else (joinUnits (.inl low :: units)).map (Char.ofNat unit :: ·)
  | .inl unit :: units =>
    if isHigh unit ∨ isLow unit then none else (joinUnits units).map (Char.ofNat unit :: ·)

def readString (s : List Char) : Option (Option String × List Char) := do
  let (units, s) ← readUnits s
  return ((joinUnits units).map String.ofList, s)

def readDigits (s : List Char) : Option (List Char × List Char) :=
  let digits := s.takeWhile Char.isDigit
  if digits = [] then none else some (digits, s.dropWhile Char.isDigit)

def readFraction : List Char → Option (Option (List Char) × List Char)
  | '.' :: s => do
    let (digits, s) ← readDigits s
    return (some digits, s)
  | s => some (none, s)

def readExponent : List Char → Option (Option Int × List Char)
  | c :: s =>
    if c = 'e' ∨ c = 'E' then do
      let (negative, s) := Decimal.splitSign s
      let (digits, s) ← readDigits s
      let value : Int := Text.ofDecimal digits
      return (some (if negative then -value else value), s)
    else some (none, c :: s)
  | [] => some (none, [])

def readNumber (s : List Char) : Option (Literal × List Char) := do
  let (negative, s) := match s with
    | '-' :: s => (true, s)
    | s => (false, s)
  let (whole, s) ← readDigits s
  if whole.head? = some '0' ∧ 1 < whole.length then none
  let (fraction, s) ← readFraction s
  let (exponent, s) ← readExponent s
  return ({ negative, whole, fraction, exponent }, s)

mutual

def readValue : Nat → List Char → Option (Raw × List Char)
  | 0, _ => none
  | fuel + 1, s =>
    match skipSpace s with
    | '"' :: s => (readString s).map fun (value, s) ↦ (.string value, s)
    | '[' :: s =>
      match skipSpace s with
      | ']' :: s => some (.array [], s)
      | s => (readItems fuel s).map fun (items, s) ↦ (.array items, s)
    | '\x7b' :: s =>
      match skipSpace s with
      | '\x7d' :: s => some (.object [], s)
      | s => (readFields fuel s).map fun (fields, s) ↦ (.object fields, s)
    | 'n' :: 'u' :: 'l' :: 'l' :: s => some (.null, s)
    | 't' :: 'r' :: 'u' :: 'e' :: s => some (.bool true, s)
    | 'f' :: 'a' :: 'l' :: 's' :: 'e' :: s => some (.bool false, s)
    | s => (readNumber s).map fun (literal, s) ↦ (.number literal, s)

def readItems : Nat → List Char → Option (List Raw × List Char)
  | 0, _ => none
  | fuel + 1, s => do
    let (item, s) ← readValue fuel s
    match skipSpace s with
    | ',' :: s =>
      let (items, s) ← readItems fuel s
      return (item :: items, s)
    | ']' :: s => return ([item], s)
    | _ => none

def readFields : Nat → List Char → Option (List (Option String × Raw) × List Char)
  | 0, _ => none
  | fuel + 1, s =>
    match skipSpace s with
    | '"' :: s => do
      let (key, s) ← readString s
      match skipSpace s with
      | ':' :: s =>
        let (value, s) ← readValue fuel s
        match skipSpace s with
        | ',' :: s =>
          let (fields, s) ← readFields fuel s
          return ((key, value) :: fields, s)
        | '\x7d' :: s => return ([(key, value)], s)
        | _ => none
      | _ => none
    | _ => none

end

/-- Reads a text that holds one value and blanks. Each step of the reader but the first follows a
character that was read, so twice the length of the text is enough fuel. -/
def read (s : List Char) : Option Raw :=
  match readValue (2 * s.length + 1) s with
  | some (value, rest) => if skipSpace rest = [] then some value else none
  | none => none

end Raw

/-- The number of a literal. It is an integer if it is written as one and fits; minus zero is a
double. -/
def Literal.value? (l : Literal) : Option Json :=
  let n : Nat := Text.ofDecimal l.whole
  let plain := l.fraction.isNone && l.exponent.isNone
  if plain ∧ ¬l.negative ∧ n < UInt64.size then some (.integer n)
  else if plain ∧ l.negative ∧ 0 < n ∧ Decimal.minInteger ≤ -n then some (.integer (-n))
  else
    (Decimal.scaledLiteral l.whole (l.fraction.getD []) (l.exponent.getD 0)).map fun x ↦
      .float (Decimal.negateIf l.negative x)

def maxDepth : Nat := 127

mutual

/-- The value of a document that is within the grammar. Doubles have to be finite, surrogates to
come in pairs, and nesting to stay within `depth`. -/
def Raw.value? (depth : Nat) : Raw → Option Json
  | .null => some .null
  | .bool b => some (.bool b)
  | .number literal => literal.value?
  | .string value => value.map .string
  | .array items =>
    match depth with
    | 0 => none
    | depth + 1 => (Raw.values? depth items).map .array
  | .object fields =>
    match depth with
    | 0 => none
    | depth + 1 => (Raw.fields? depth fields).map fun fields ↦ .object (Entries.ofList fields)

def Raw.values? (depth : Nat) : List Raw → Option (List Json)
  | [] => some []
  | item :: items =>
    match Raw.value? depth item, Raw.values? depth items with
    | some item, some items => some (item :: items)
    | _, _ => none

def Raw.fields? (depth : Nat) : List (Option String × Raw) → Option (List (String × Json))
  | [] => some []
  | (key, value) :: fields =>
    match key, Raw.value? depth value, Raw.fields? depth fields with
    | some key, some value, some fields => some ((key, value) :: fields)
    | _, _, _ => none

end

def read? (s : String) : Option Json := (Raw.read s.toList).bind (Raw.value? maxDepth)

end Lading.Json
