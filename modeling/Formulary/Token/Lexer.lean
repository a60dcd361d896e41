import Formulary.Fault
import Formulary.Text.Blank
import Formulary.Text.Span

set_option autoImplicit false

namespace Formulary

/-- A token read off the head of a text: its kind, its characters and the text behind it. -/
structure Lexeme where
  kind : Kind
  text : List Char
  rest : List Char
  deriving DecidableEq, Repr

namespace Lexeme

def isWordStart (c : Char) : Bool := c.isAlpha || c == '_'

def isWordPart (c : Char) : Bool := c.isAlphanum || c == '_'

/-- The fraction of a numeral: a point with at least one digit behind it, or nothing. -/
def fraction : List Char → List Char × List Char
  | '.' :: cs =>
    if cs.takeWhile Char.isDigit = [] then ([], '.' :: cs)
    else ('.' :: cs.takeWhile Char.isDigit, cs.dropWhile Char.isDigit)
  | cs => ([], cs)

/-- The sign of an exponent, or nothing. -/
def sign : List Char → List Char × List Char
  | '+' :: cs => (['+'], cs)
  | '-' :: cs => (['-'], cs)
  | cs => ([], cs)

/-- The exponent of a numeral: its mark, an optional sign and at least one digit, or nothing. -/
def exponent : List Char → List Char × List Char
  | [] => ([], [])
  | mark :: cs =>
    if mark = 'e' ∨ mark = 'E' then
      let signed := sign cs
      if signed.2.takeWhile Char.isDigit = [] then ([], mark :: cs)
      else (mark :: (signed.1 ++ signed.2.takeWhile Char.isDigit),
        signed.2.dropWhile Char.isDigit)
    else ([], mark :: cs)

/-- An unsigned numeral. A sign in front is an operator. -/
def number? (cs : List Char) : Option Lexeme :=
  let whole := cs.takeWhile Char.isDigit
  if whole = [] then none
  else
    let fractional := fraction (cs.dropWhile Char.isDigit)
    let scaled := exponent fractional.2
    let text := whole ++ fractional.1 ++ scaled.1
    some ⟨.number (String.ofList text), text, scaled.2⟩

/-- The characters up to and including the closing quote, and those behind it. A backslash takes
the next character with it, whatever it is. -/
def closeQuote (quote : Char) : List Char → Option (List Char × List Char)
  | [] => none
  | '\\' :: [] => none
  | '\\' :: c :: cs => (closeQuote quote cs).map fun (body, rest) => ('\\' :: c :: body, rest)
  | c :: cs =>
    if c = quote then some ([c], cs)
    else (closeQuote quote cs).map fun (body, rest) => (c :: body, rest)

/-- A string literal in double or single quotes. -/
def string? : List Char → Option Lexeme
  | [] => none
  | quote :: cs =>
    if quote = '"' ∨ quote = '\'' then
      (closeQuote quote cs).map fun (body, rest) =>
        ⟨.string (String.ofList (quote :: body)), quote :: body, rest⟩
    else none

/-- A reserved word is a keyword, any other word an identifier. -/
def wordKind (word : String) : Kind :=
  match Keyword.ofWord? word with
  | some keyword => .keyword keyword
  | none => .ident word

def word? : List Char → Option Lexeme
  | [] => none
  | c :: cs =>
    if isWordStart c then
      let text := c :: cs.takeWhile isWordPart
      some ⟨wordKind (String.ofList text), text, cs.dropWhile isWordPart⟩
    else none

/-- An operator or a punctuation mark, the longer spelling first. -/
def symbol? : List Char → Option Lexeme
  | '=' :: '>' :: cs => some ⟨.fatArrow, ['=', '>'], cs⟩
  | '-' :: '>' :: cs => some ⟨.arrow, ['-', '>'], cs⟩
  | '=' :: '=' :: cs => some ⟨.equalEqual, ['=', '='], cs⟩
  | '!' :: '=' :: cs => some ⟨.notEqual, ['!', '='], cs⟩
  | '<' :: '>' :: cs => some ⟨.notEqual, ['<', '>'], cs⟩
  | '<' :: '=' :: cs => some ⟨.lessEqual, ['<', '='], cs⟩
  | '>' :: '=' :: cs => some ⟨.greaterEqual, ['>', '='], cs⟩
  | '(' :: cs => some ⟨.openParen, ['('], cs⟩
  | ')' :: cs => some ⟨.closeParen, [')'], cs⟩
  | '[' :: cs => some ⟨.openBracket, ['['], cs⟩
  | ']' :: cs => some ⟨.closeBracket, [']'], cs⟩
  | ',' :: cs => some ⟨.comma, [','], cs⟩
  | '.' :: cs => some ⟨.dot, ['.'], cs⟩
  | '^' :: cs => some ⟨.caret, ['^'], cs⟩
  | '+' :: cs => some ⟨.plus, ['+'], cs⟩
  | '-' :: cs => some ⟨.minus, ['-'], cs⟩
  | '*' :: cs => some ⟨.star, ['*'], cs⟩
  | '/' :: cs => some ⟨.slash, ['/'], cs⟩
  | '=' :: cs => some ⟨.equal, ['='], cs⟩
  | '<' :: cs => some ⟨.less, ['<'], cs⟩
  | '>' :: cs => some ⟨.greater, ['>'], cs⟩
  | _ => none

/-- The lexeme at the head of a text. -/
def read? (cs : List Char) : Option Lexeme :=
  number? cs <|> string? cs <|> word? cs <|> symbol? cs

/-- The lexeme takes a part of the text that is not empty, and leaves the rest. -/
def Splits (lexeme : Lexeme) (cs : List Char) : Prop :=
  lexeme.text ≠ [] ∧ lexeme.text ++ lexeme.rest = cs

theorem fraction_append (cs : List Char) : (fraction cs).1 ++ (fraction cs).2 = cs := by
  unfold fraction
  split
  · split
    · rfl
    · simp only [List.cons_append, List.takeWhile_append_dropWhile]
  · rfl

theorem sign_append (cs : List Char) : (sign cs).1 ++ (sign cs).2 = cs := by
  unfold sign
  split <;> rfl

theorem exponent_append (cs : List Char) : (exponent cs).1 ++ (exponent cs).2 = cs := by
  unfold exponent
  split
  · rfl
  · rename_i mark cs
    split
    · simp only
      split
      · rfl
      · simp only [List.cons_append, List.append_assoc, List.takeWhile_append_dropWhile,
          sign_append]
    · rfl

theorem number?_splits {cs : List Char} {lexeme : Lexeme} (found : number? cs = some lexeme) :
    lexeme.Splits cs := by
  unfold number? at found
  simp only at found
  split at found
  · contradiction
  · rename_i digits
    obtain rfl := Option.some.inj found
    refine ⟨by simp [digits], ?_⟩
    simp only [List.append_assoc]
    rw [exponent_append, fraction_append, List.takeWhile_append_dropWhile]

private theorem closeQuote_append {quote : Char} {cs body rest : List Char}
    (found : closeQuote quote cs = some (body, rest)) : body ++ rest = cs := by
  fun_induction closeQuote quote cs generalizing body rest with
  | case1 => contradiction
  | case2 => contradiction
  | case3 c cs ih =>
    obtain ⟨⟨inner, after⟩, inside, same⟩ := Option.map_eq_some_iff.1 found
    obtain ⟨rfl, rfl⟩ := Prod.mk.inj same
    simp [ih inside]
  | case4 cs =>
    obtain ⟨rfl, rfl⟩ := Prod.mk.inj (Option.some.inj found)
    rfl
  | case5 c cs _ _ _ ih =>
    obtain ⟨⟨inner, after⟩, inside, same⟩ := Option.map_eq_some_iff.1 found
    obtain ⟨rfl, rfl⟩ := Prod.mk.inj same
    simp [ih inside]

theorem string?_splits {cs : List Char} {lexeme : Lexeme} (found : string? cs = some lexeme) :
    lexeme.Splits cs := by
  unfold string? at found
  split at found
  · contradiction
  · split at found
    · obtain ⟨⟨body, rest⟩, inside, rfl⟩ := Option.map_eq_some_iff.1 found
      refine ⟨by simp, ?_⟩
      simp only [List.cons_append, closeQuote_append inside]
    · contradiction

theorem word?_splits {cs : List Char} {lexeme : Lexeme} (found : word? cs = some lexeme) :
    lexeme.Splits cs := by
  unfold word? at found
  split at found
  · contradiction
  · split at found
    · obtain rfl := Option.some.inj found
      refine ⟨by simp, ?_⟩
      simp only [List.cons_append, List.takeWhile_append_dropWhile]
    · contradiction

theorem symbol?_splits {cs : List Char} {lexeme : Lexeme} (found : symbol? cs = some lexeme) :
    lexeme.Splits cs := by
  unfold symbol? at found
  split at found <;>
    first
    | contradiction
    | (obtain rfl := Option.some.inj found; exact ⟨by simp, rfl⟩)

theorem read?_splits {cs : List Char} {lexeme : Lexeme} (found : read? cs = some lexeme) :
    lexeme.Splits cs := by
  simp only [read?, Option.orElse_eq_orElse, Option.orElse_eq_or, Option.or_eq_some_iff] at found
  rcases found with number | ⟨_, string | ⟨_, word | ⟨_, symbol⟩⟩⟩
  · exact number?_splits number
  · exact string?_splits string
  · exact word?_splits word
  · exact symbol?_splits symbol

theorem read?_shorter {cs : List Char} {lexeme : Lexeme} (found : read? cs = some lexeme) :
    lexeme.rest.length < cs.length := by
  obtain ⟨full, rfl⟩ := read?_splits found
  have := List.length_pos_iff.2 full
  simp only [List.length_append]
  omega

end Lexeme

/-- The four characters that separate tokens. -/
def isSeparator (c : Char) : Bool := c == ' ' || c == '\t' || c == '\r' || c == '\n'

/-- Why no token starts with this character. -/
def strayCause (c : Char) : SyntaxCause :=
  if c = '"' ∨ c = '\'' then .unterminatedString c else .strayCharacter c

/-- The tokens of a text whose first byte has position `start` in the formula. -/
def tokensFrom (start : Nat) (cs : List Char) : Except Fault (List Token) :=
  match cs with
  | [] => .ok []
  | c :: cs =>
    if isSeparator c then tokensFrom (start + c.utf8Size) cs
    else
      match _ : Lexeme.read? (c :: cs) with
      | none => .error (.malformed start (strayCause c))
      | some lexeme =>
        let stop := start + Text.byteSize lexeme.text
        (tokensFrom stop lexeme.rest).map (⟨lexeme.kind, start, stop⟩ :: ·)
termination_by cs.length
decreasing_by
  · simp
  · exact Lexeme.read?_shorter ‹_›

/-- The tokens of a formula. -/
def tokenize (source : String) : Except Fault (List Token) := tokensFrom 0 source.toList

/-- As `tokensFrom`, but characters that start no token are stepped over. -/
def lenientTokensFrom (start : Nat) (cs : List Char) : List Token :=
  match cs with
  | [] => []
  | c :: cs =>
    if Text.isBlank c then lenientTokensFrom (start + c.utf8Size) cs
    else
      match _ : Lexeme.read? (c :: cs) with
      | none => lenientTokensFrom (start + c.utf8Size) cs
      | some lexeme =>
        let stop := start + Text.byteSize lexeme.text
        ⟨lexeme.kind, start, stop⟩ :: lenientTokensFrom stop lexeme.rest
termination_by cs.length
decreasing_by
  · simp
  · simp
  · exact Lexeme.read?_shorter ‹_›

/-- The tokens in any text, for looking at text that is not a formula. -/
def tokenizeLenient (source : String) : List Token := lenientTokensFrom 0 source.toList

end Formulary
