import Formulary.Toml.Quoted
import Formulary.Toml.Table

set_option autoImplicit false

namespace Formulary.Toml

/-- The most parts that a key can have. -/
def maxKeyParts : Nat := 79

/-- Deepest nesting of arrays and inline tables. -/
def maxDepth : Nat := 79

/-- Drops the carriage return of each line end. One that stands elsewhere is refused. -/
def uniformLineEnds : List Char → Option (List Char)
  | [] => some []
  | '\r' :: '\n' :: rest => (uniformLineEnds rest).map ('\n' :: ·)
  | c :: rest => if c = '\r' then none else (uniformLineEnds rest).map (c :: ·)

def isBareKeyChar (c : Char) : Bool := c.isAlphanum || c == '_' || c == '-'

/-- One part of a key, with or without quotes. -/
def keyPart (cs : List Char) : Option (Taken String cs.length) :=
  match cs with
  | [] => none
  | c :: rest =>
    if c = '"' then
      (basic rest).map fun body => (body.map String.ofList).widen (length_le_cons c rest)
    else if c = '\x27' then
      (literal rest).map fun body => (body.map String.ofList).widen (length_le_cons c rest)
    else if isBareKeyChar c then
      some ⟨String.ofList (c :: rest.takeWhile isBareKeyChar), rest.dropWhile isBareKeyChar,
        Nat.lt_succ_of_le (List.dropWhile_sublist isBareKeyChar).length_le⟩
    else none

/-- A key of any number of parts, with the blanks around it. -/
def keyParts (cs : List Char) : Option (Taken KeyPath cs.length) := do
  let part ← keyPart (skipBlanks cs)
  have within := Nat.lt_of_lt_of_le part.shorter (skipBlanks_le cs)
  match found : skipBlanks part.rest with
  | '.' :: rest =>
    have closer := Nat.lt_trans (skipBlanks_shorter found) within
    let more ← keyParts rest
    return (more.map fun path => ⟨part.value :: path.parents, path.last⟩).widen
      (Nat.le_of_lt closer)
  | _ =>
    return ⟨⟨[], part.value⟩, skipBlanks part.rest,
      Nat.lt_of_le_of_lt (skipBlanks_le part.rest) within⟩
termination_by cs.length
decreasing_by exact closer

def keyPath (cs : List Char) : Option (Taken KeyPath cs.length) :=
  (keyParts cs).filter fun path => path.value.toList.length ≤ maxKeyParts

abbrev Reader := (cs : List Char) → Option (Taken Node cs.length)

theorem skipBlanks_tail_le {cs rest : List Char} {c : Char} (found : cs = c :: rest) :
    (skipBlanks rest).length ≤ cs.length := by
  rw [found]
  exact Nat.le_succ_of_le (skipBlanks_le rest)

/-- A key, an equals sign and a value. -/
def pair (item : Reader) (cs : List Char) : Option (Taken (KeyPath × Node) cs.length) := do
  let path ← keyPath cs
  match found : path.rest with
  | '=' :: rest =>
    let node ← item (skipBlanks rest)
    return (node.map (path.value, ·)).widen
      (Nat.le_trans (skipBlanks_tail_le found) (Nat.le_of_lt path.shorter))
  | _ => none

/-- Drops blanks, line feeds and comments. -/
def skipTrivia (cs : List Char) : List Char :=
  match cs with
  | [] => []
  | c :: rest =>
    if isBlankOrBreak c then skipTrivia rest
    else if c = '#' then skipTrivia (rest.dropWhile isPlain)
    else c :: rest
termination_by cs.length
decreasing_by
  · exact length_lt_cons c rest
  · exact Nat.lt_succ_of_le (List.dropWhile_sublist isPlain).length_le

theorem skipTrivia_le (cs : List Char) : (skipTrivia cs).length ≤ cs.length := by
  fun_induction skipTrivia cs with
  | case1 => simp
  | case2 c rest blank ih =>
    simp only [List.length_cons]
    omega
  | case3 rest blank ih =>
    have := (List.dropWhile_sublist (l := rest) isPlain).length_le
    simp only [List.length_cons]
    omega
  | case4 c rest blank comment => simp

theorem skipTrivia_shorter {cs rest : List Char} {c : Char} (found : skipTrivia cs = c :: rest) :
    rest.length < cs.length := by
  have := skipTrivia_le cs
  rw [found, List.length_cons] at this
  omega

/-- The items of an array after its bracket. A comma may follow the last one. -/
def items (item : Reader) (cs : List Char) : Option (Taken (List Node) cs.length) :=
  match closed : skipTrivia cs with
  | ']' :: rest => some ⟨[], rest, skipTrivia_shorter closed⟩
  | _ => do
    let first ← item (skipTrivia cs)
    have within := Nat.lt_of_lt_of_le first.shorter (skipTrivia_le cs)
    match found : skipTrivia first.rest with
    | ',' :: rest =>
      have closer := Nat.lt_trans (skipTrivia_shorter found) within
      let more ← items item rest
      return (more.map (first.value :: ·)).widen (Nat.le_of_lt closer)
    | ']' :: rest =>
      return ⟨[first.value], rest, Nat.lt_trans (skipTrivia_shorter found) within⟩
    | _ => none
termination_by cs.length
decreasing_by exact closer

/-- The pairs of an inline table after its brace, when there is one. -/
def pairs (item : Reader) (cs : List Char) : Option (Taken (List (KeyPath × Node)) cs.length) := do
  let first ← pair item cs
  match found : skipBlanks first.rest with
  | ',' :: rest =>
    have closer := Nat.lt_trans (skipBlanks_shorter found) first.shorter
    let more ← pairs item rest
    return (more.map (first.value :: ·)).widen (Nat.le_of_lt closer)
  | '\x7d' :: rest =>
    return ⟨[first.value], rest, Nat.lt_trans (skipBlanks_shorter found) first.shorter⟩
  | _ => none
termination_by cs.length
decreasing_by exact closer

def inlineTable (item : Reader) (cs : List Char) : Option (Taken Node cs.length) :=
  match closed : skipBlanks cs with
  | '\x7d' :: rest => some ⟨.table .inline [], rest, skipBlanks_shorter closed⟩
  | _ => do
    let found ← pairs item cs
    let entries ← Entries.ofPairs found.value
    return found.map fun _ => .table .inline entries

def isBareChar (c : Char) : Bool :=
  c.isAlphanum || c == '_' || c == '+' || c == '-' || c == '.' || c == ':'

/-- A date, a space and a time are one text. -/
def bareText (cs : List Char) : List Char :=
  let first := cs.takeWhile isBareChar
  match cs.dropWhile isBareChar with
  | ' ' :: rest =>
    let both := first ++ ' ' :: rest.takeWhile isBareChar
    if isDateTime both then both else first
  | _ => first

/-- A value without quotes and brackets. -/
def bare (cs : List Char) : Option (Taken Node cs.length) := do
  let text := bareText cs
  let value ← Scalar.ofBare? text
  if shorter : (cs.drop text.length).length < cs.length then
    some ⟨.scalar value, cs.drop text.length, shorter⟩
  else none

/-- A value. Without a reader for what is inside, it may not be an array or an inline table. -/
def valueWith (inner : Option Reader) : Reader := fun cs =>
  match cs with
  | [] => none
  | c :: rest =>
    if c = '"' ∨ c = '\x27' then
      (quotedValue (c :: rest)).map (·.map fun text => .scalar (.string text))
    else if c = '[' then do
      let item ← inner
      let found ← items item rest
      return (found.map .array).widen (length_le_cons c rest)
    else if c = '\x7b' then do
      let item ← inner
      let found ← inlineTable item rest
      return found.widen (length_le_cons c rest)
    else bare (c :: rest)

/-- A value with at most so many arrays and inline tables around any of its parts. -/
def readAt : Nat → Reader
  | 0 => valueWith none
  | depth + 1 => valueWith (some (readAt depth))

/-- What follows the end of a line, before which blanks and a comment may stand. -/
def lineEnd (cs : List Char) : Option (List Char) :=
  let rest := match skipBlanks cs with
    | '#' :: comment => comment.dropWhile isPlain
    | rest => rest
  match rest with
  | [] => some []
  | '\n' :: rest => some rest
  | _ => none

/-- The statement at the head of a line, if the line has one, and what follows it. -/
def statement (cs : List Char) : Option (Option Statement × List Char) :=
  match cs with
  | [] => some (none, [])
  | '\n' :: _ => some (none, cs)
  | '#' :: _ => some (none, cs)
  | '[' :: '[' :: rest => do
    let path ← keyPath rest
    match path.rest with
    | ']' :: ']' :: rest => some (some (.tables path.value), rest)
    | _ => none
  | '[' :: rest => do
    let path ← keyPath rest
    match path.rest with
    | ']' :: rest => some (some (.table path.value), rest)
    | _ => none
  | _ => do
    let found ← pair (readAt maxDepth) cs
    return (some (.pair found.value.1 found.value.2), found.rest)

/-- The statements of a document. -/
def statements (cs : List Char) : Option (List Statement) :=
  if cs = [] then some []
  else do
    let (found, rest) ← statement (skipBlanks cs)
    let rest ← lineEnd rest
    if rest.length < cs.length then do
      let more ← statements rest
      return found.toList ++ more
    else none
termination_by cs.length

/-- A byte order mark in front of a document is dropped. -/
def afterMark : List Char → List Char
  | '\ufeff' :: rest => rest
  | cs => cs

/-- The entries of a document. -/
def parse? (text : String) : Option Entries := do
  let chars ← uniformLineEnds (afterMark text.toList)
  Statement.runAll (← statements chars)

end Formulary.Toml
