import Formulary.Text.Numeral

set_option autoImplicit false

/- The range of JSON numbers. A number is read as a significand of at most 64 bits, scaled by a
power of ten, and then taken as a double. It is out of range if the double would be infinite.

The significand takes as many leading digits as fit. Digits of the whole part that do not fit
raise the exponent; digits of the fraction that do not fit are dropped. -/
namespace Formulary.JsonNumber

/-- The parts of a number without its sign. -/
structure Parts where
  whole : List Char
  fraction : List Char
  /-- Whether the exponent is negative. -/
  downward : Bool
  exponent : List Char

/-- Takes digits into a significand as long as it fits a machine word. Gives the significand and
the digits that are left. -/
def significand (value : Nat) : List Char → Nat × List Char
  | [] => (value, [])
  | digit :: rest =>
    let next := 10 * value + (digit.toNat - '0'.toNat)
    if Text.maxWord < next then (value, digit :: rest) else significand next rest

/-- The nearest number with 53 significant bits, and the even one of two that are equally near. -/
def roundToDouble (n : Nat) : Nat :=
  if n < Nat.pow 2 53 then n
  else
    let unit := Nat.pow 2 (n.log2 - 52)
    let quotient := n / unit
    let remainder := n % unit
    if unit < 2 * remainder ∨ (2 * remainder = unit ∧ quotient % 2 = 1) then (quotient + 1) * unit
    else quotient * unit

/-- The least product of two doubles that is rounded to infinity. -/
def overflowBound : Nat := Nat.pow 2 1024 - Nat.pow 2 970

/-- The largest power of ten that is a finite double. -/
def maxPower : Nat := 308

/-- The largest exponent that is read at all. -/
def maxExponent : Nat := Nat.pow 2 31 - 1

/-- Whether a significand times a power of ten is too large for a double. -/
def overflows (value : Nat) (exponent : Int) : Bool :=
  value != 0 &&
    match exponent with
    | .negSucc _ => false
    | .ofNat power =>
      maxPower < power || overflowBound ≤ roundToDouble value * roundToDouble (Nat.pow 10 power)

def inRange (parts : Parts) : Bool :=
  let (start, excess) := significand 0 parts.whole
  let (value, dropped) := significand start parts.fraction
  let scale : Int := (excess.length : Int) - ((parts.fraction.length - dropped.length : Nat) : Int)
  let exponent := Text.decimalValue parts.exponent
  if maxExponent < exponent then value == 0 || parts.downward
  else !overflows value (if parts.downward then scale - exponent else scale + exponent)

end Formulary.JsonNumber
