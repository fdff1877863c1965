namespace Lading.Decimal

/-- A double is `significand · 2 ^ exponent` up to its sign, unless it is no finite number. -/
inductive Parts
  | nan
  | infinite
  | finite (significand : Nat) (exponent : Int)
deriving DecidableEq, Repr

def minExponent : Int := -1074

def hiddenBit : Nat := 0x10000000000000

def isNegative (x : Float) : Bool := x.toBits >>> 63 == 1

def parts (x : Float) : Parts :=
  let bits := x.toBits.toNat
  let field := bits / hiddenBit % 2048
  let fraction := bits % hiddenBit
  if field = 2047 then (if fraction = 0 then .infinite else .nan)
  else if field = 0 then .finite fraction minExponent
  else .finite (hiddenBit + fraction) (minExponent + (field - 1 : Nat))

def ofParts (significand : Nat) (exponent : Int) : Float :=
  let field := (exponent - minExponent).toNat
  let bits := if significand < hiddenBit then significand else significand + field * hiddenBit
  if 2046 ≤ field then Float.ofBits 0x7ff0000000000000 else Float.ofBits (UInt64.ofNat bits)

def roundDiv (num den : Nat) : Nat :=
  let q := num / den
  let r := num % den
  if 2 * r < den ∨ (2 * r = den ∧ q % 2 = 0) then q else q + 1

/-- The double nearest to `num / den`; of two the one with even significand. -/
def nearest (num den : Nat) : Float :=
  if num = 0 then 0.0
  else
    let guess : Int := (num.log2 : Int) - den.log2 - 53
    let scaled (e : Int) : Nat × Nat :=
      if 0 ≤ e then (num, den * Nat.pow 2 e.toNat) else (num * Nat.pow 2 (-e).toNat, den)
    let fits (e : Int) : Bool := (scaled e).1 < 2 * hiddenBit * (scaled e).2
    let exponent := max minExponent (if fits guess then guess else guess + 1)
    let significand := roundDiv (scaled exponent).1 (scaled exponent).2
    if significand = 2 * hiddenBit then ofParts hiddenBit (exponent + 1)
    else ofParts significand exponent

def negateIf (negative : Bool) (x : Float) : Float := if negative then -x else x

end Lading.Decimal
