import Lading.Decimal.Binary
import Lading.Decimal.Integer

namespace Lading.Decimal

inductive FloatFault
  | empty | invalid
deriving DecidableEq, Repr

def FloatFault.message : FloatFault → String
  | .empty => "cannot parse float from empty string"
  | .invalid => "invalid float literal"

/-- The double nearest to `digits · 10 ^ exponent`. Beyond 400 places on either side of the point
the answer is infinity or zero. -/
def nearestScaled (digits : Nat) (exponent : Int) : Float :=
  let point := (Text.decimal digits).length + exponent
  if digits = 0 ∨ point < -400 then 0.0
  else if 400 < point then Float.ofBits 0x7ff0000000000000
  else if 0 ≤ exponent then nearest (digits * Nat.pow 10 exponent.toNat) 1
  else nearest digits (Nat.pow 10 (-exponent).toNat)

def readExponent : List Char → Option Int
  | [] => some 0
  | e :: s =>
    if e = 'e' ∨ e = 'E' then
      let (negative, digits) := splitSign s
      if digits ≠ [] ∧ digits.all Char.isDigit then
        some (if negative then -(Text.ofDecimal digits : Int) else Text.ofDecimal digits)
      else none
    else none

def readDigits (s : List Char) : Option Float :=
  let whole := s.takeWhile Char.isDigit
  let (fraction, rest) := match s.dropWhile Char.isDigit with
    | '.' :: rest => (rest.takeWhile Char.isDigit, rest.dropWhile Char.isDigit)
    | rest => ([], rest)
  if whole ++ fraction = [] then none
  else (readExponent rest).map fun exponent ↦
    nearestScaled (Text.ofDecimal (whole ++ fraction)) (exponent - fraction.length)

def readSpecial? (s : List Char) : Option Float :=
  let lower := s.map Char.toLower
  if lower = "inf".toList ∨ lower = "infinity".toList then some (Float.ofBits 0x7ff0000000000000)
  else if lower = "nan".toList then some (Float.ofBits 0x7ff8000000000000)
  else none

def readFloat (s : List Char) : Except FloatFault Float :=
  if s = [] then .error .empty
  else
    let (negative, body) := splitSign s
    match readDigits body <|> readSpecial? body with
    | some x => .ok (negateIf negative x)
    | none => .error .invalid

def absorb (value : Nat) : List Char → Nat × Nat
  | [] => (value, 0)
  | d :: digits =>
    let grown := 10 * value + (d.toNat - '0'.toNat)
    if grown < UInt64.size then
      let (value, count) := absorb grown digits
      (value, count + 1)
    else (value, 0)

def powerOfTen (n : Nat) : Float := nearest (Nat.pow 10 n) 1

/-- Multiplies by `10 ^ exponent` in at most three steps of at most `10 ^ 308`; `none` where that
leaves the range. -/
def scale (x : Float) (exponent : Int) : Nat → Option Float
  | 0 => some x
  | fuel + 1 =>
    if exponent.natAbs ≤ 308 then
      if 0 ≤ exponent then
        let y := x * powerOfTen exponent.toNat
        if parts y = .infinite then none else some y
      else some (x / powerOfTen exponent.natAbs)
    else if x == 0.0 then some x
    else if 0 ≤ exponent then none
    else scale (x / powerOfTen 308) (exponent + 308) fuel

/-- The double of `whole.fraction · 10 ^ exponent` by scaling. Digits that no longer fit 64 bits
count as zeros before the point and for nothing after it. -/
def scaledLiteral (whole fraction : List Char) (exponent : Int) : Option Float :=
  let (value, taken) := absorb 0 whole
  let (value, taken') := absorb value fraction
  scale (nearest value 1) (exponent + (whole.length - taken : Nat) - taken') 4

end Lading.Decimal
