set_option autoImplicit false

namespace Formulary.Text

/-- The value of a run of decimal digits, which may be empty. -/
def decimalValue (digits : List Char) : Nat :=
  digits.foldl (fun value c => 10 * value + (c.toNat - '0'.toNat)) 0

/-- The value of a hexadecimal digit. -/
def hexDigit? (c : Char) : Option Nat :=
  if c.isDigit then some (c.toNat - '0'.toNat)
  else if 'a' ≤ c ∧ c ≤ 'f' then some (c.toNat - 'a'.toNat + 10)
  else if 'A' ≤ c ∧ c ≤ 'F' then some (c.toNat - 'A'.toNat + 10)
  else none

/-- A whole number: at least one digit and nothing else. -/
def natural? (cs : List Char) : Option Nat :=
  if cs ≠ [] ∧ cs.all Char.isDigit then some (decimalValue cs) else none

/-- A whole number of at most `limit`, with an optional plus sign. -/
def boundedNatural? (limit : Nat) (cs : List Char) : Option Nat :=
  let digits := match cs with
    | '+' :: rest => rest
    | _ => cs
  (natural? digits).filter (· ≤ limit)

/-- A whole number between `-(limit + 1)` and `limit`, with an optional sign. -/
def boundedInteger? (limit : Nat) (cs : List Char) : Option Int :=
  match cs with
  | '-' :: rest => ((natural? rest).filter (· ≤ limit + 1)).map fun n => -(n : Int)
  | '+' :: rest => ((natural? rest).filter (· ≤ limit)).map fun n => (n : Int)
  | _ => ((natural? cs).filter (· ≤ limit)).map fun n => (n : Int)

/-- The largest number that a machine word of 64 bits holds. -/
def maxWord : Nat := Nat.pow 2 64 - 1

/-- The largest number that a signed machine word of 64 bits holds. -/
def maxSignedWord : Nat := Nat.pow 2 63 - 1

/-- Nothing, or an exponent: its mark, an optional sign and at least one digit. -/
def isExponent : List Char → Bool
  | [] => true
  | mark :: rest =>
    let digits := match rest with
      | '+' :: more => more
      | '-' :: more => more
      | _ => rest
    (mark == 'e' || mark == 'E') && !digits.isEmpty && digits.all Char.isDigit

/-- Digits with an optional point among or beside them, then an optional exponent. -/
def isDecimal (cs : List Char) : Bool :=
  let whole := cs.takeWhile Char.isDigit
  let (fraction, rest) := match cs.dropWhile Char.isDigit with
    | '.' :: more => (more.takeWhile Char.isDigit, more.dropWhile Char.isDigit)
    | more => ([], more)
  !(whole.isEmpty && fraction.isEmpty) && isExponent rest

/-- The spellings of infinity and of the undefined number. -/
def isNonFinite (cs : List Char) : Bool :=
  ["inf", "infinity", "nan"].contains (String.ofList cs).toLower

/-- Text that reads as a floating-point number and has no minus sign in front. -/
def isUnsignedNumber (s : String) : Bool :=
  match s.toList with
  | '+' :: rest => isNonFinite rest || isDecimal rest
  | cs => isNonFinite cs || isDecimal cs

end Formulary.Text
