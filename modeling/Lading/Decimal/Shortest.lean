import Lading.Decimal.Binary
import Lading.Text.Basic

namespace Lading.Decimal

structure Scaled where
  digits : Nat
  exponent : Int
deriving DecidableEq, Repr

structure Interval where
  low : Nat
  num : Nat
  high : Nat
  den : Nat
  closed : Bool

def Interval.ofParts (significand : Nat) (exponent : Int) : Interval :=
  let factor := if 0 ≤ exponent then Nat.pow 2 exponent.toNat else 1
  -- Below a power of two the doubles lie closer.
  let gap := if significand = hiddenBit ∧ minExponent < exponent then 1 else 2
  { low := (4 * significand - gap) * factor
    num := 4 * significand * factor
    high := (4 * significand + 2) * factor
    den := if 0 ≤ exponent then 4 else 4 * Nat.pow 2 (-exponent).toNat
    closed := significand % 2 == 0 }

/-- The number `n` of places before the point, so that the fraction is below `10 ^ n` and not below
`10 ^ (n - 1)`. It is negative for zeros after the point. -/
def Interval.places (i : Interval) : Int :=
  if i.den ≤ i.num then (Text.decimal (i.num / i.den)).length
  else 1 - ((Text.decimal ((i.den - 1) / i.num)).length : Int)

def tens (exponent : Int) : Nat × Nat :=
  if 0 ≤ exponent then (1, Nat.pow 10 exponent.toNat) else (Nat.pow 10 (-exponent).toNat, 1)

def Interval.contains (i : Interval) (s : Scaled) : Bool :=
  let (up, down) := tens s.exponent
  let value := s.digits * i.den * down
  if i.closed then i.low * up ≤ value && value ≤ i.high * up
  else i.low * up < value && value < i.high * up

inductive Tie
  | even | up
deriving DecidableEq, Repr

def Interval.nearest? (i : Interval) (tie : Tie) (exponent : Int) : Option Scaled :=
  let (up, down) := tens exponent
  let below : Scaled := ⟨i.num * up / (i.den * down), exponent⟩
  let above : Scaled := ⟨below.digits + 1, exponent⟩
  let rest := 2 * (i.num * up % (i.den * down))
  let aboveFirst := i.den * down < rest ∨
    (i.den * down = rest ∧ (tie = .up ∨ below.digits % 2 = 1))
  ((if aboveFirst then [above, below] else [below, above]).find? i.contains)

def Scaled.strip (s : Scaled) : Nat → Scaled
  | 0 => s
  | fuel + 1 =>
    if s.digits ≠ 0 ∧ s.digits % 10 = 0 then
      Scaled.strip ⟨s.digits / 10, s.exponent + 1⟩ fuel
    else s

/-- The nearest of the shortest numbers that read back as the double. Seventeen digits always
do. -/
def shortest (tie : Tie) (significand : Nat) (exponent : Int) : Scaled :=
  let i := Interval.ofParts significand exponent
  match (List.range 17).findSome? fun n ↦ i.nearest? tie (i.places - (n + 1 : Nat)) with
  | some s => s.strip 17
  | none => ⟨significand, exponent⟩

def zeros (n : Int) : List Char := List.replicate n.toNat '0'

def positional (digits : List Char) (point : Int) : List Char :=
  if point ≤ 0 then '0' :: '.' :: zeros (-point) ++ digits
  else digits.take point.toNat ++ zeros (point - digits.length) ++
    (if point < digits.length then '.' :: digits.drop point.toNat else [])

def scientific (digits : List Char) (point : Int) : List Char :=
  digits.take 1 ++ (if digits.length = 1 then [] else '.' :: digits.drop 1) ++
    'e' :: (if 0 < point then ['+'] else []) ++ Text.integer (point - 1)

def withSign (negative : Bool) (s : List Char) : String :=
  String.ofList (if negative then '-' :: s else s)

def showPlain (x : Float) : String :=
  match parts x with
  | .nan => "NaN"
  | .infinite => withSign (isNegative x) "inf".toList
  | .finite 0 _ => withSign (isNegative x) ['0']
  | .finite significand exponent =>
    let s := shortest .up significand exponent
    let digits := Text.decimal s.digits
    withSign (isNegative x) (positional digits (digits.length + s.exponent))

/-- A finite double in a document. Positional notation goes from `0.00001` to below `10 ^ 16`, and
integers have a point and a zero there. -/
def showCompact (x : Float) : String :=
  match parts x with
  | .nan | .infinite => "null"
  | .finite 0 _ => withSign (isNegative x) ['0', '.', '0']
  | .finite significand exponent =>
    let s := shortest .even significand exponent
    let digits := Text.decimal s.digits
    let point := digits.length + s.exponent
    withSign (isNegative x)
      (if point ≤ -5 ∨ 16 < point then scientific digits point
      else if (digits.length : Int) ≤ point then positional digits point ++ ['.', '0']
      else positional digits point)

end Lading.Decimal
