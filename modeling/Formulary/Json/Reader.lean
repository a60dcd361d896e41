import Formulary.Json.Number
import Formulary.Json.Value
import Formulary.Text.Taken

set_option autoImplicit false

namespace Formulary

namespace JsonReader

/-- Deepest nesting of arrays and objects. -/
def maxDepth : Nat := 127

def isSpace (c : Char) : Bool := c == ' ' || c == '\n' || c == '\t' || c == '\r'

def skipSpace (cs : List Char) : List Char := cs.dropWhile isSpace

theorem skipSpace_le (cs : List Char) : (skipSpace cs).length ≤ cs.length :=
  (List.dropWhile_sublist isSpace).length_le

theorem skipSpace_shorter {cs rest : List Char} {c : Char} (found : skipSpace cs = c :: rest) :
    rest.length < cs.length := by
  have := skipSpace_le cs
  rw [found, List.length_cons] at this
  omega

/-- A unit of sixteen bits from four hexadecimal digits. -/
def hexUnit? (a b c d : Char) : Option Nat := do
  let a ← Text.hexDigit? a
  let b ← Text.hexDigit? b
  let c ← Text.hexDigit? c
  let d ← Text.hexDigit? d
  return ((a * 16 + b) * 16 + c) * 16 + d

def isHighSurrogate (unit : Nat) : Bool := 0xD800 ≤ unit && unit ≤ 0xDBFF

def isLowSurrogate (unit : Nat) : Bool := 0xDC00 ≤ unit && unit ≤ 0xDFFF

/-- The character after a backslash and `u`: one unit, or two that form a surrogate pair. -/
def unicodeEscape? : List Char → Option (Char × List Char)
  | a :: b :: c :: d :: rest => do
    let unit ← hexUnit? a b c d
    if isLowSurrogate unit then none
    else if isHighSurrogate unit then
      match rest with
      | '\\' :: 'u' :: a :: b :: c :: d :: rest => do
        let low ← hexUnit? a b c d
        if isLowSurrogate low then
          some (Char.ofNat ((unit - 0xD800) * 0x400 + (low - 0xDC00) + 0x10000), rest)
        else none
      | _ => none
    else some (Char.ofNat unit, rest)
  | _ => none

/-- The character after a backslash. -/
def escape? : List Char → Option (Char × List Char)
  | '"' :: rest => some ('"', rest)
  | '\\' :: rest => some ('\\', rest)
  | '/' :: rest => some ('/', rest)
  | 'b' :: rest => some ('\x08', rest)
  | 'f' :: rest => some ('\x0c', rest)
  | 'n' :: rest => some ('\n', rest)
  | 'r' :: rest => some ('\r', rest)
  | 't' :: rest => some ('\t', rest)
  | 'u' :: rest => unicodeEscape? rest
  | _ => none

private theorem unicodeEscape?_shorter {cs rest : List Char} {c : Char}
    (found : unicodeEscape? cs = some (c, rest)) : rest.length < cs.length := by
  unfold unicodeEscape? at found
  split at found
  · obtain ⟨unit, -, found⟩ := Option.bind_eq_some_iff.1 found
    split at found
    · contradiction
    · split at found
      · split at found
        · obtain ⟨low, -, found⟩ := Option.bind_eq_some_iff.1 found
          split at found
          · obtain ⟨-, rfl⟩ := Prod.mk.inj (Option.some.inj found)
            simp only [List.length_cons]
            omega
          · contradiction
        · contradiction
      · obtain ⟨-, rfl⟩ := Prod.mk.inj (Option.some.inj found)
        simp only [List.length_cons]
        omega
  · contradiction

theorem escape?_shorter {cs rest : List Char} {c : Char} (found : escape? cs = some (c, rest)) :
    rest.length < cs.length := by
  unfold escape? at found
  split at found
  case h_9 =>
    have := unicodeEscape?_shorter found
    simp only [List.length_cons]
    omega
  case h_10 => contradiction
  all_goals
    obtain ⟨-, rfl⟩ := Prod.mk.inj (Option.some.inj found)
    simp

/-- The characters of a string up to its closing quote. Control characters have to be escaped. -/
def stringBody (cs : List Char) : Option (Taken (List Char) cs.length) :=
  match cs with
  | [] => none
  | c :: cs =>
    if c = '"' then some ⟨[], cs, length_lt_cons c cs⟩
    else if c = '\\' then
      match found : escape? cs with
      | none => none
      | some (escaped, rest) => do
        let body ← stringBody rest
        return (body.map (escaped :: ·)).widen
          (Nat.le_succ_of_le (Nat.le_of_lt (escape?_shorter found)))
    else if c.toNat < 0x20 then none
    else do
      let body ← stringBody cs
      return (body.map (c :: ·)).widen (length_le_cons c cs)
termination_by cs.length
decreasing_by
  · exact Nat.lt_succ_of_lt (escape?_shorter found)
  · exact length_lt_cons c cs

/-- A string without its opening quote. -/
def string (cs : List Char) : Option (Taken String cs.length) :=
  (stringBody cs).map (·.map String.ofList)

/-- The whole part of a number: a zero alone, or digits that start with another. -/
def wholePart (cs : List Char) : Option (List Char × List Char) :=
  let digits := cs.takeWhile Char.isDigit
  match digits with
  | [] => none
  | '0' :: _ :: _ => none
  | _ => some (digits, cs.dropWhile Char.isDigit)

/-- The digits after a point, which have to be there if the point is. -/
def fractionPart : List Char → Option (List Char × List Char)
  | '.' :: cs =>
    if cs.takeWhile Char.isDigit = [] then none
    else some (cs.takeWhile Char.isDigit, cs.dropWhile Char.isDigit)
  | cs => some ([], cs)

/-- The exponent: whether it is negative, and its digits. -/
def exponentPart (cs : List Char) : Option (Bool × List Char × List Char) :=
  match cs with
  | [] => some (false, [], [])
  | mark :: rest =>
    if mark = 'e' ∨ mark = 'E' then
      let (downward, rest) := match rest with
        | '+' :: rest => (false, rest)
        | '-' :: rest => (true, rest)
        | _ => (false, rest)
      if rest.takeWhile Char.isDigit = [] then none
      else some (downward, rest.takeWhile Char.isDigit, rest.dropWhile Char.isDigit)
    else some (false, [], cs)

/-- What follows a number that may start with a minus sign and is in range. -/
def afterNumber (cs : List Char) : Option (List Char) := do
  let unsigned := match cs with
    | '-' :: rest => rest
    | _ => cs
  let (whole, rest) ← wholePart unsigned
  let (fraction, rest) ← fractionPart rest
  let (downward, exponent, rest) ← exponentPart rest
  if JsonNumber.inRange ⟨whole, fraction, downward, exponent⟩ then some rest else none

/-- A number. Its text is what stands before the rest. -/
def number (cs : List Char) : Option (Taken JsonValue cs.length) := do
  let rest ← afterNumber cs
  if shorter : rest.length < cs.length then
    some ⟨.number (String.ofList (cs.take (cs.length - rest.length))), rest, shorter⟩
  else none

/-- What follows a given word. -/
def afterWord (word cs : List Char) : Option (List Char) :=
  if word.isPrefixOf cs then some (cs.drop word.length) else none

/-- One of the three values with a name. -/
def constant (cs : List Char) : Option (Taken JsonValue cs.length) := do
  let (value, rest) ←
    ((afterWord "null".toList cs).map fun rest => (JsonValue.null, rest)) <|>
    ((afterWord "true".toList cs).map fun rest => (JsonValue.boolean true, rest)) <|>
    ((afterWord "false".toList cs).map fun rest => (JsonValue.boolean false, rest))
  if shorter : rest.length < cs.length then some ⟨value, rest, shorter⟩ else none

abbrev Reader := (cs : List Char) → Option (Taken JsonValue cs.length)

/-- The items of an array after its bracket, when there is one. -/
def items (item : Reader) (cs : List Char) : Option (Taken (List JsonValue) cs.length) := do
  let first ← item cs
  match found : skipSpace first.rest with
  | ',' :: rest =>
    have closer := Nat.lt_trans (skipSpace_shorter found) first.shorter
    let more ← items item rest
    return (more.map (first.value :: ·)).widen (Nat.le_of_lt closer)
  | ']' :: rest =>
    return ⟨[first.value], rest, Nat.lt_trans (skipSpace_shorter found) first.shorter⟩
  | _ => none
termination_by cs.length
decreasing_by exact closer

def array (item : Reader) (cs : List Char) : Option (Taken JsonValue cs.length) :=
  match found : skipSpace cs with
  | ']' :: rest => some ⟨.array [], rest, skipSpace_shorter found⟩
  | _ => (items item cs).map (·.map .array)

/-- A key with its colon and its value. -/
def member (item : Reader) (cs : List Char) : Option (Taken (String × JsonValue) cs.length) :=
  match opened : skipSpace cs with
  | '"' :: rest => do
    let key ← string rest
    match separated : skipSpace key.rest with
    | ':' :: rest => do
      let value ← item rest
      return (value.map (key.value, ·)).widen (Nat.le_of_lt
        (Nat.lt_trans (Nat.lt_trans (skipSpace_shorter separated) key.shorter)
          (skipSpace_shorter opened)))
    | _ => none
  | _ => none

/-- The members of an object after its brace, when there is one. -/
def members (item : Reader) (cs : List Char) :
    Option (Taken (List (String × JsonValue)) cs.length) := do
  let first ← member item cs
  match found : skipSpace first.rest with
  | ',' :: rest =>
    have closer := Nat.lt_trans (skipSpace_shorter found) first.shorter
    let more ← members item rest
    return (more.map (first.value :: ·)).widen (Nat.le_of_lt closer)
  | '\x7d' :: rest =>
    return ⟨[first.value], rest, Nat.lt_trans (skipSpace_shorter found) first.shorter⟩
  | _ => none
termination_by cs.length
decreasing_by exact closer

def object (item : Reader) (cs : List Char) : Option (Taken JsonValue cs.length) :=
  match found : skipSpace cs with
  | '\x7d' :: rest => some ⟨.object [], rest, skipSpace_shorter found⟩
  | _ => (members item cs).map (·.map .object)

/-- A value without blanks before it. Without a reader for what is inside, it may not be an array
or an object. -/
def bareValue (inner : Option Reader) (cs : List Char) : Option (Taken JsonValue cs.length) :=
  match cs with
  | [] => none
  | c :: rest =>
    if c = '"' then
      (string rest).map fun found => (found.map JsonValue.string).widen (length_le_cons c rest)
    else if c = '[' then do
      let item ← inner
      let found ← array item rest
      return found.widen (length_le_cons c rest)
    else if c = '\x7b' then do
      let item ← inner
      let found ← object item rest
      return found.widen (length_le_cons c rest)
    else if c = '-' ∨ c.isDigit then number (c :: rest)
    else constant (c :: rest)

def valueWith (inner : Option Reader) : Reader := fun cs =>
  (bareValue inner (skipSpace cs)).map (·.widen (skipSpace_le cs))

/-- A value with at most so many arrays and objects around any of its parts. -/
def readAt : Nat → Reader
  | 0 => valueWith none
  | depth + 1 => valueWith (some (readAt depth))

end JsonReader

/-- The value at the head of a text, and the text after it. -/
def JsonValue.read? (text : String) : Option (JsonValue × List Char) :=
  (JsonReader.readAt JsonReader.maxDepth text.toList).map fun found => (found.value, found.rest)

end Formulary
