import Formulary.Text.Numeral
import Formulary.Text.Taken

set_option autoImplicit false

namespace Formulary.Toml

def isBlank (c : Char) : Bool := c == ' ' || c == '\t'

def skipBlanks (cs : List Char) : List Char := cs.dropWhile isBlank

theorem skipBlanks_le (cs : List Char) : (skipBlanks cs).length ≤ cs.length :=
  (List.dropWhile_sublist isBlank).length_le

theorem skipBlanks_shorter {cs rest : List Char} {c : Char} (found : skipBlanks cs = c :: rest) :
    rest.length < cs.length := by
  have := skipBlanks_le cs
  rw [found, List.length_cons] at this
  omega

/-- A character that may stand in a text as it is: no control character but the tab. -/
def isPlain (c : Char) : Bool := c == '\t' || (0x20 ≤ c.toNat && c.toNat != 0x7F)

/-- The character with a number given in hexadecimal digits. -/
def charOfHex? (digits : List Char) : Option Char := do
  let digits ← digits.mapM Text.hexDigit?
  let value := digits.foldl (fun value digit => 16 * value + digit) 0
  if value.isValidChar then some (Char.ofNat value) else none

/-- The character after a backslash. -/
def escape? : List Char → Option (Char × List Char)
  | '"' :: rest => some ('"', rest)
  | '\\' :: rest => some ('\\', rest)
  | 'b' :: rest => some ('\x08', rest)
  | 't' :: rest => some ('\t', rest)
  | 'n' :: rest => some ('\n', rest)
  | 'f' :: rest => some ('\x0c', rest)
  | 'r' :: rest => some ('\r', rest)
  | 'u' :: a :: b :: c :: d :: rest => (charOfHex? [a, b, c, d]).map (·, rest)
  | 'U' :: a :: b :: c :: d :: e :: f :: g :: h :: rest =>
    (charOfHex? [a, b, c, d, e, f, g, h]).map (·, rest)
  | _ => none

theorem escape?_shorter {cs rest : List Char} {c : Char} (found : escape? cs = some (c, rest)) :
    rest.length < cs.length := by
  unfold escape? at found
  split at found
  case h_8 | h_9 =>
    obtain ⟨_, -, same⟩ := Option.map_eq_some_iff.1 found
    obtain ⟨-, rfl⟩ := Prod.mk.inj same
    simp only [List.length_cons]
    omega
  case h_10 => contradiction
  all_goals
    obtain ⟨-, rfl⟩ := Prod.mk.inj (Option.some.inj found)
    simp

/-- A character in front of a text that was read. -/
def prepend {shorter bound : Nat} (c : Char) (taken : Taken (List Char) shorter)
    (le : shorter ≤ bound) : Taken (List Char) bound :=
  (taken.map (c :: ·)).widen le

/-- A text up to its closing double quote. -/
def basic (cs : List Char) : Option (Taken (List Char) cs.length) :=
  match cs with
  | [] => none
  | c :: cs =>
    if c = '"' then some ⟨[], cs, length_lt_cons c cs⟩
    else if c = '\\' then
      match found : escape? cs with
      | none => none
      | some (escaped, rest) => do
        let body ← basic rest
        return prepend escaped body (Nat.le_succ_of_le (Nat.le_of_lt (escape?_shorter found)))
    else if isPlain c then do
      let body ← basic cs
      return prepend c body (length_le_cons c cs)
    else none
termination_by cs.length
decreasing_by
  · exact Nat.lt_succ_of_lt (escape?_shorter found)
  · exact length_lt_cons c cs

/-- A text up to its closing single quote. -/
def literal (cs : List Char) : Option (Taken (List Char) cs.length) :=
  match cs with
  | [] => none
  | c :: cs =>
    if c = '\x27' then some ⟨[], cs, length_lt_cons c cs⟩
    else if isPlain c then do
      let body ← literal cs
      return prepend c body (length_le_cons c cs)
    else none

/-- How many quotes stand at the head of a text, counted up to five. -/
def quoteRun (quote : Char) (cs : List Char) : Nat :=
  ((cs.take 5).takeWhile (· == quote)).length

theorem quoteRun_le (quote : Char) (cs : List Char) : quoteRun quote cs ≤ cs.length := by
  have run := (List.takeWhile_sublist (l := cs.take 5) (· == quote)).length_le
  rw [List.length_take] at run
  unfold quoteRun
  omega

theorem length_drop_quoteRun {quote : Char} {cs : List Char} (run : 3 ≤ quoteRun quote cs) :
    (cs.drop (quoteRun quote cs)).length < cs.length := by
  have := quoteRun_le quote cs
  rw [List.length_drop]
  omega

/-- The end of a text in three quotes. Up to two more quotes before them belong to the text. -/
def close? (quote : Char) (cs : List Char) : Option (Taken (List Char) cs.length) :=
  if run : 3 ≤ quoteRun quote cs then
    some ⟨List.replicate (quoteRun quote cs - 3) quote, cs.drop (quoteRun quote cs),
      length_drop_quoteRun run⟩
  else none

def isBlankOrBreak (c : Char) : Bool := isBlank c || c == '\n'

/-- What follows a backslash that hides the end of its line and all blanks and line feeds after
it. -/
def continuation? (cs : List Char) : Option (List Char) :=
  match skipBlanks cs with
  | '\n' :: rest => some (rest.dropWhile isBlankOrBreak)
  | _ => none

theorem continuation?_shorter {cs rest : List Char} (found : continuation? cs = some rest) :
    rest.length < cs.length := by
  unfold continuation? at found
  split at found
  · rename_i tail skipped
    have := skipBlanks_shorter skipped
    have := (List.dropWhile_sublist (l := tail) isBlankOrBreak).length_le
    cases found
    omega
  · contradiction

/-- A text up to its three closing double quotes. -/
def longBasic (cs : List Char) : Option (Taken (List Char) cs.length) :=
  match close? '"' cs with
  | some closed => some closed
  | none =>
    match cs with
    | [] => none
    | c :: cs =>
      if c = '\\' then
        match hidden : continuation? cs with
        | some rest => do
          let body ← longBasic rest
          return body.widen (Nat.le_succ_of_le (Nat.le_of_lt (continuation?_shorter hidden)))
        | none =>
          match found : escape? cs with
          | none => none
          | some (escaped, rest) => do
            let body ← longBasic rest
            return prepend escaped body (Nat.le_succ_of_le (Nat.le_of_lt (escape?_shorter found)))
      else if isPlain c || c == '\n' then do
        let body ← longBasic cs
        return prepend c body (length_le_cons c cs)
      else none
termination_by cs.length
decreasing_by
  · exact Nat.lt_succ_of_lt (continuation?_shorter hidden)
  · exact Nat.lt_succ_of_lt (escape?_shorter found)
  · exact length_lt_cons c cs

/-- A text up to its three closing single quotes. -/
def longLiteral (cs : List Char) : Option (Taken (List Char) cs.length) :=
  match close? '\x27' cs with
  | some closed => some closed
  | none =>
    match cs with
    | [] => none
    | c :: cs =>
      if isPlain c || c == '\n' then do
        let body ← longLiteral cs
        return prepend c body (length_le_cons c cs)
      else none

/-- Drops a line feed right after the opening quotes. -/
def afterBreak : List Char → List Char
  | '\n' :: rest => rest
  | cs => cs

theorem afterBreak_le (cs : List Char) : (afterBreak cs).length ≤ cs.length := by
  unfold afterBreak
  split <;> simp

theorem afterBreak_le_cons (a b c : Char) (cs : List Char) :
    (afterBreak cs).length ≤ (a :: b :: c :: cs).length :=
  Nat.le_trans (afterBreak_le cs) (Nat.le_add_right cs.length 3)

/-- A quoted text as a value, of any of the four kinds. -/
def quotedValue (cs : List Char) : Option (Taken String cs.length) :=
  match cs with
  | '"' :: '"' :: '"' :: rest =>
    (longBasic (afterBreak rest)).map fun body =>
      (body.map String.ofList).widen (afterBreak_le_cons _ _ _ rest)
  | '\x27' :: '\x27' :: '\x27' :: rest =>
    (longLiteral (afterBreak rest)).map fun body =>
      (body.map String.ofList).widen (afterBreak_le_cons _ _ _ rest)
  | '"' :: rest =>
    (basic rest).map fun body => (body.map String.ofList).widen (length_le_cons _ rest)
  | '\x27' :: rest =>
    (literal rest).map fun body => (body.map String.ofList).widen (length_le_cons _ rest)
  | _ => none

end Formulary.Toml
