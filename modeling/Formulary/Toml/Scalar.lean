import Formulary.Text.Numeral

set_option autoImplicit false

namespace Formulary.Toml

inductive Scalar where
  | string (value : String)
  | boolean (value : Bool)
  /-- A number as it was written. -/
  | number (text : String)
  /-- A date, a time of day or both, as written. -/
  | moment (text : String)
  deriving DecidableEq, Repr

/-- Digits, where an underscore may stand between two of them. -/
def isDigitRun (isDigit : Char → Bool) : List Char → Bool
  | [] => false
  | [c] => isDigit c
  | c :: '_' :: rest => isDigit c && isDigitRun isDigit rest
  | c :: rest => isDigit c && isDigitRun isDigit rest

/-- A whole number without a sign. Only the number zero starts with a zero. -/
def isWhole (cs : List Char) : Bool :=
  isDigitRun Char.isDigit cs && (cs.length == 1 || cs.head? != some '0')

/-- The value of digits with underscores in some base. -/
def valueIn (base : Nat) (cs : List Char) : Nat :=
  (cs.filterMap Text.hexDigit?).foldl (fun value digit => base * value + digit) 0

/-- Digits of a base that fit a signed machine word. -/
def isBased (base : Nat) (cs : List Char) : Bool :=
  isDigitRun (fun c => (Text.hexDigit? c).any (· < base)) cs &&
    valueIn base cs ≤ Text.maxSignedWord

/-- Takes a sign off. The flag says whether it is a minus sign. -/
def unsigned : List Char → Bool × List Char
  | '+' :: rest => (false, rest)
  | '-' :: rest => (true, rest)
  | cs => (false, cs)

/-- A whole number that fits a signed machine word. Only decimal ones may have a sign. -/
def isInteger : List Char → Bool
  | '0' :: 'x' :: rest => isBased 16 rest
  | '0' :: 'o' :: rest => isBased 8 rest
  | '0' :: 'b' :: rest => isBased 2 rest
  | cs =>
    let (negative, digits) := unsigned cs
    let limit := if negative then Text.maxSignedWord + 1 else Text.maxSignedWord
    isWhole digits && valueIn 10 digits ≤ limit

/-- The least number that is rounded to an infinite double. -/
def infiniteBound : Nat := Nat.pow 2 1024 - Nat.pow 2 970

/-- Whether digits times a power of ten stay below the infinite doubles. Powers are only taken
where the number of digits bounds them. -/
def isFinite (digits : List Char) (exponent : Int) : Bool :=
  let value := valueIn 10 digits
  if value = 0 ∨ (digits.length : Int) + exponent ≤ 308 then true
  else match exponent with
    | .ofNat power => power ≤ 308 && value * Nat.pow 10 power < infiniteBound
    | .negSucc power => value < infiniteBound * Nat.pow 10 (power + 1)

def isDigitOrUnderscore (c : Char) : Bool := c.isDigit || c == '_'

/-- The digits after a point. Without a point there are none. -/
def fraction? : List Char → Option (List Char × List Char)
  | '.' :: rest =>
    if isDigitRun Char.isDigit (rest.takeWhile isDigitOrUnderscore) then
      some (rest.takeWhile isDigitOrUnderscore, rest.dropWhile isDigitOrUnderscore)
    else none
  | cs => some ([], cs)

/-- The exponent at the end of a number. Without a mark it is zero. -/
def exponent? : List Char → Option Int
  | [] => some 0
  | mark :: rest =>
    let (negative, digits) := unsigned rest
    if (mark == 'e' || mark == 'E') && isDigitRun Char.isDigit digits then
      some (if negative then -(valueIn 10 digits : Int) else (valueIn 10 digits : Int))
    else none

/-- A number with a fraction, an exponent or both. A positive one is finite. -/
def isDecimal (negative : Bool) (cs : List Char) : Bool :=
  let whole := cs.takeWhile isDigitOrUnderscore
  let rest := cs.dropWhile isDigitOrUnderscore
  isWhole whole && rest != [] &&
    match fraction? rest with
    | none => false
    | some (fraction, rest) =>
      match exponent? rest with
      | none => false
      | some exponent =>
        let digits := (whole ++ fraction).filter Char.isDigit
        let places := (fraction.filter Char.isDigit).length
        negative || isFinite digits (exponent - (places : Int))

def isFloat (cs : List Char) : Bool :=
  let (negative, rest) := unsigned cs
  rest == "inf".toList || rest == "nan".toList || isDecimal negative rest

def isLeapYear (year : Nat) : Bool := year % 4 == 0 && (year % 100 != 0 || year % 400 == 0)

def daysIn (year month : Nat) : Nat :=
  if month = 2 then (if isLeapYear year then 29 else 28)
  else if month = 4 ∨ month = 6 ∨ month = 9 ∨ month = 11 then 30
  else 31

/-- A number of digits between two bounds. -/
def isBetween (least most : Nat) (digits : List Char) : Bool :=
  (Text.natural? digits).any fun n => least ≤ n && n ≤ most

/-- Year, month and day of a date that exists. -/
def isDate : List Char → Bool
  | [y, e, a, r, '-', m, o, '-', d, t] =>
    isBetween 0 9999 [y, e, a, r] && isBetween 1 12 [m, o] &&
      isBetween 1 (daysIn (Text.decimalValue [y, e, a, r]) (Text.decimalValue [m, o])) [d, t]
  | _ => false

/-- Hours, minutes and seconds, which may have a fraction. A leap second counts. -/
def isTime : List Char → Bool
  | h :: o :: ':' :: m :: i :: ':' :: s :: e :: rest =>
    isBetween 0 23 [h, o] && isBetween 0 59 [m, i] && isBetween 0 60 [s, e] &&
      match rest with
      | [] => true
      | '.' :: digits => digits != [] && digits.all Char.isDigit
      | _ => false
  | _ => false

/-- Nothing, the mark of universal time, or hours and minutes from it. -/
def isOffset : List Char → Bool
  | [] => true
  | ['Z'] => true
  | ['z'] => true
  | [sign, h, o, ':', m, i] =>
    (sign == '+' || sign == '-') && isBetween 0 23 [h, o] && isBetween 0 59 [m, i]
  | _ => false

def isTimeChar (c : Char) : Bool := c.isDigit || c == ':' || c == '.'

/-- A date with a time of day. -/
def isDateTime (cs : List Char) : Bool :=
  isDate (cs.take 10) &&
    match cs.drop 10 with
    | [] => false
    | mark :: rest =>
      (mark == 'T' || mark == 't' || mark == ' ') &&
        isTime (rest.takeWhile isTimeChar) && isOffset (rest.dropWhile isTimeChar)

def isMoment (cs : List Char) : Bool := isDate cs || isTime cs || isDateTime cs

/-- The value that a text without quotes spells. -/
def Scalar.ofBare? (cs : List Char) : Option Scalar :=
  if cs = "true".toList then some (.boolean true)
  else if cs = "false".toList then some (.boolean false)
  else if isInteger cs || isFloat cs then some (.number (String.ofList cs))
  else if isMoment cs then some (.moment (String.ofList cs))
  else none

end Formulary.Toml
