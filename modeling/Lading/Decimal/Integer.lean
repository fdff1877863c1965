import Lading.Text.Basic

namespace Lading.Decimal

inductive IntegerFault
  | empty | invalidDigit | tooLarge | tooSmall
deriving DecidableEq, Repr

def IntegerFault.message : IntegerFault → String
  | .empty => "cannot parse integer from empty string"
  | .invalidDigit => "invalid digit found in string"
  | .tooLarge => "number too large to fit in target type"
  | .tooSmall => "number too small to fit in target type"

def minInteger : Int := -0x8000000000000000

def maxInteger : Int := 0x7fffffffffffffff

def splitSign : List Char → Bool × List Char
  | '-' :: s => (true, s)
  | '+' :: s => (false, s)
  | s => (false, s)

/-- Reads an integer with an optional sign. Digits that leave the range are at fault before any
later character is. -/
def readInteger (s : List Char) : Except IntegerFault Int :=
  if s = [] then .error .empty
  else
    let (negative, body) := splitSign s
    let digits := body.takeWhile Char.isDigit
    let value : Int := Text.ofDecimal digits
    if negative ∧ -value < minInteger then .error .tooSmall
    else if ¬negative ∧ maxInteger < value then .error .tooLarge
    else if digits = [] ∨ digits.length < body.length then .error .invalidDigit
    else .ok (if negative then -value else value)

end Lading.Decimal
