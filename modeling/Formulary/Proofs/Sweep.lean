import Mathlib
import Formulary.Proofs.Scan

set_option autoImplicit false

/- A sweep of generated code, one character at a time. It hands out the string literals that it
passes and refuses three things outside them: the word THEN, a letter right behind a number, and the
end of a line. A lexer that steps over what it does not know finds in swept code the literals
handed out, and no THEN. Unlike the lexer, a sweep may stop between any two parts of the code and go
on with the next, which is how the code of a formula is put together. -/
namespace Formulary

namespace Lexeme

theorem isWordPart_eq (c : Char) : isWordPart c = (c.isDigit || isWordStart c) := by
  simp only [isWordPart, isWordStart, Char.isAlphanum]
  ac_rfl

/-- No digit and no quote starts a word. -/
theorem isWordStart_bounds {c : Char} (start : isWordStart c = true) :
    c.isDigit = false ∧ ¬ (c = '"' ∨ c = '\'') := by
  have bound : 0x40 < c.toNat := by
    simp only [isWordStart, Char.isAlpha, Char.isUpper, Char.isLower, Char.reduceVal,
      UInt32.le_iff_toNat_le, UInt32.reduceToNat, Char.toNat_val, ge_iff_le, Bool.or_eq_true,
      Bool.and_eq_true, decide_eq_true_eq, beq_iff_eq] at start
    rcases start with (upper | lower) | rfl
    · omega
    · omega
    · decide
  refine ⟨?_, ?_⟩
  · simp only [Char.isDigit, Char.reduceVal, UInt32.le_iff_toNat_le, UInt32.reduceToNat,
      Char.toNat_val, ge_iff_le, Bool.and_eq_false_imp, decide_eq_true_eq, decide_eq_false_iff_not]
    omega
  · rintro (rfl | rfl) <;> simp at bound

end Lexeme

/-- Whether a word is THEN, in any mix of upper and lower case. -/
def isThen (word : List Char) : Bool := word.map Char.toUpper == ['T', 'H', 'E', 'N']

theorem isThen_iff {word : String} :
    isThen word.toList = true ↔ Keyword.ofWord? word = some .thenWord := by
  have letters : isThen word.toList = true ↔ word.toUpper = "THEN" := by
    rw [isThen, beq_iff_eq, ← String.toList_inj, String.toUpper, String.toList_map]
    rfl
  rw [letters, Keyword.ofWord?]
  constructor
  · intro upper
    simp [upper]
  · intro known
    split at known <;> first | assumption | cases known

/-- The two characters that end a line of code. -/
def isLineEnd (c : Char) : Bool := c == '\n' || c == '\r'

/-- Where a sweep stands. -/
inductive Sweep where
  /-- Behind a blank, a mark or a literal, or at the start. -/
  | gap
  | word (spelled : List Char)
  /-- Behind a digit of a number, or the mark of its exponent. -/
  | digits
  /-- In a string literal that this quote closes, with what was passed of it. -/
  | literal (quote : Char) (taken : List Char)
  /-- Behind a backslash in such a literal. -/
  | escape (quote : Char) (taken : List Char)
  deriving DecidableEq, Repr

namespace Sweep

/-- Whether a word, a number or a literal is complete if the code stops here. -/
def closes : Sweep → Bool
  | gap => true
  | word spelled => !isThen spelled
  | digits => true
  | literal _ _ => false
  | escape _ _ => false

/-- A character of a word or of a number. -/
def extend : Sweep → Char → Option Sweep
  | word spelled, c => some (word (spelled ++ [c]))
  | digits, c => if c.isDigit || c == 'e' || c == 'E' then some digits else none
  | _, c => some (if c.isDigit then digits else word [c])

/-- A quote, a blank or a mark. -/
def leave (c : Char) : Option Sweep :=
  if c = '"' ∨ c = '\'' then some (literal c [c]) else if isLineEnd c then none else some gap

/-- Where the sweep stands behind one more character, and the literal that this one completes. -/
def step : Sweep → Char → Option (Sweep × List String)
  | literal quote taken, c =>
    if c = quote then some (gap, [String.ofList (taken ++ [c])])
    else if c = '\\' then some (escape quote (taken ++ [c]), [])
    else some (literal quote (taken ++ [c]), [])
  | escape quote taken, c => some (literal quote (taken ++ [c]), [])
  | place, c =>
    if Lexeme.isWordPart c then (place.extend c).map (·, [])
    else if place.closes then (leave c).map (·, []) else none

/-- Where the sweep stands behind a text, and the literals in it. -/
def run (place : Sweep) : List Char → Option (Sweep × List String)
  | [] => some (place, [])
  | c :: cs =>
    (place.step c).bind fun (next, first) =>
      (next.run cs).map fun (final, others) => (final, first ++ others)

section Run

variable {place next final : Sweep} {c : Char} {cs first second : List Char}
  {found others : List String}

@[simp] theorem run_nil : place.run [] = some (place, []) := rfl

theorem run_cons_eq_some :
    place.run (c :: cs) = some (final, found) ↔
      ∃ next here others, place.step c = some (next, here) ∧ next.run cs = some (final, others) ∧
        found = here ++ others := by
  simp only [run, Option.bind_eq_some_iff, Option.map_eq_some_iff, Prod.exists, Prod.mk.injEq]
  grind

/-- A character that completes no literal. -/
theorem run_cons (steps : place.step c = some (next, [])) : place.run (c :: cs) = next.run cs := by
  simp only [run, steps, Option.bind_some, List.nil_append]
  exact Option.map_id'

theorem run_append :
    place.run (first ++ second) = some (final, found) ↔
      ∃ next here others, place.run first = some (next, here) ∧
        next.run second = some (final, others) ∧ found = here ++ others := by
  induction first generalizing place found with
  | nil => simp
  | cons c first ih =>
    simp only [List.cons_append, run_cons_eq_some, ih]
    constructor
    · rintro ⟨middle, one, _, steps, ⟨next, two, three, front, back, rfl⟩, rfl⟩
      exact ⟨next, one ++ two, three, ⟨middle, one, two, steps, front, rfl⟩, back, by simp⟩
    · rintro ⟨next, _, three, ⟨middle, one, two, steps, front, rfl⟩, back, rfl⟩
      exact ⟨middle, one, two ++ three, steps, ⟨next, two, three, front, back, rfl⟩, by simp⟩

/-- Behind a complete word or number, a blank or a mark does what it does in a gap. -/
theorem step_of_closes (closed : place.closes = true) (other : Lexeme.isWordPart c = false) :
    place.step c = gap.step c := by
  cases place with
  | literal quote taken => cases closed
  | escape quote taken => cases closed
  | gap => rfl
  | _ =>
    simp only [step, other, Bool.false_eq_true, ↓reduceIte]
    exact if_pos closed

/-- A blank or a mark leads to a gap. -/
theorem step_mark (closed : place.closes = true) (other : Lexeme.isWordPart c = false)
    (unquoted : ¬ (c = '"' ∨ c = '\'')) (steps : place.step c = some (next, found)) :
    next = gap ∧ found = [] := by
  rw [step_of_closes closed other] at steps
  simp only [step, other, leave, unquoted, closes, Bool.false_eq_true, ↓reduceIte] at steps
  split at steps
  · cases steps
  · cases steps
    exact ⟨rfl, rfl⟩

theorem closes_of_step (other : Lexeme.isWordPart c = false) {spelled : List Char}
    {result : Sweep × List String} (steps : (word spelled).step c = some result) :
    (word spelled).closes = true := by
  simp only [step, other, Bool.false_eq_true, ↓reduceIte] at steps
  by_contra reserved
  rw [if_neg reserved] at steps
  cases steps

theorem run_word {spelled parts rest : List Char}
    (inWord : ∀ c ∈ parts, Lexeme.isWordPart c = true) :
    (word spelled).run (parts ++ rest) = (word (spelled ++ parts)).run rest := by
  induction parts generalizing spelled with
  | nil => simp
  | cons c parts ih =>
    have steps : (word spelled).step c = some (word (spelled ++ [c]), []) := by
      simp [step, extend, inWord c (by simp)]
    rw [List.cons_append, run_cons steps, ih fun c member => inWord c (by simp [member])]
    simp

theorem isWordPart_of_isDigit (digit : c.isDigit = true) : Lexeme.isWordPart c = true := by
  simp [Lexeme.isWordPart, Char.isAlphanum, digit]

theorem step_digit (outside : place = gap ∨ place = digits) (digit : c.isDigit = true) :
    place.step c = some (digits, []) := by
  rcases outside with rfl | rfl <;> simp [step, extend, isWordPart_of_isDigit digit, digit]

theorem run_isDigits {only rest : List Char} (natural : Text.IsDigits only)
    (outside : place = gap ∨ place = digits) : place.run (only ++ rest) = digits.run rest := by
  obtain ⟨nonempty, all⟩ := natural
  induction only generalizing place with
  | nil => exact absurd rfl nonempty
  | cons c only ih =>
    simp only [List.all_cons, Bool.and_eq_true] at all
    rw [List.cons_append, run_cons (step_digit outside all.1)]
    by_cases last : only = []
    · rw [last, List.nil_append]
    · exact ih (.inr rfl) last all.2

/-- A numeral is passed in several strides, with a gap behind its point and behind its sign. -/
theorem run_isNumeral {text rest : List Char} (numeral : Text.IsNumeral text)
    (outside : place = gap ∨ place = digits) : place.run (text ++ rest) = digits.run rest := by
  obtain ⟨whole, fraction, scale, rfl, natural, point, scaled⟩ := numeral
  rw [List.append_assoc, List.append_assoc, run_isDigits natural outside]
  have fractional (rest : List Char) : digits.run (fraction ++ rest) = digits.run rest := by
    rcases point with rfl | ⟨only, rfl, natural⟩
    · rfl
    · have steps : digits.step '.' = some (gap, []) := rfl
      rw [List.cons_append, run_cons steps, run_isDigits natural (.inl rfl)]
  rw [fractional]
  rcases scaled with rfl | ⟨mark, sign, only, rfl, isMark, signed, natural⟩
  · rfl
  · have steps : digits.step mark = some (digits, []) := by rcases isMark with rfl | rfl <;> rfl
    rw [List.cons_append, run_cons steps, List.append_assoc]
    have plus : digits.step '+' = some (gap, []) := rfl
    have minus : digits.step '-' = some (gap, []) := rfl
    rcases signed with rfl | rfl | rfl
    · exact run_isDigits natural (.inr rfl)
    · rw [List.cons_append, run_cons plus]
      exact run_isDigits natural (.inl rfl)
    · rw [List.cons_append, run_cons minus]
      exact run_isDigits natural (.inl rfl)

/-- What the sweep accepts of a word right behind a number, it takes for a part of the number. -/
theorem run_digits {parts rest : List Char} (inWord : ∀ c ∈ parts, Lexeme.isWordPart c = true)
    (swept : digits.run (parts ++ rest) = some (final, found)) :
    digits.run rest = some (final, found) := by
  induction parts with
  | nil => exact swept
  | cons c parts ih =>
    apply ih fun c member => inWord c (by simp [member])
    obtain ⟨next, here, others, steps, later, rfl⟩ := run_cons_eq_some.1 swept
    simp only [step, extend, inWord c (by simp), ↓reduceIte] at steps
    split at steps
    · cases steps
      exact later
    · cases steps

/-- A word is left behind in a gap, unless a number in front of it made it a part of the number. -/
theorem run_of_word {parts rest : List Char} (outside : place = gap ∨ place = digits)
    (start : Lexeme.isWordStart c = true) (inWord : ∀ d ∈ parts, Lexeme.isWordPart d = true)
    (ends : ∀ d ∈ rest.head?, Lexeme.isWordPart d = false)
    (swept : place.run (c :: parts ++ rest) = some (final, found)) (closed : final.closes = true) :
    isThen (c :: parts) = false ∧
      ∃ next last, (next = gap ∨ next = digits) ∧ next.run rest = some (last, found) ∧
        last.closes = true := by
  have part := Lexeme.isWordPart_of_isWordStart start
  have noDigit := (Lexeme.isWordStart_bounds start).1
  rcases outside with rfl | rfl
  · have steps : gap.step c = some (word [c], []) := by simp [step, extend, part, noDigit]
    rw [List.cons_append, run_cons steps, run_word inWord, List.singleton_append] at swept
    cases rest with
    | nil =>
      cases swept
      exact ⟨by simpa [closes] using closed, gap, gap, .inl rfl, rfl, rfl⟩
    | cons d rest =>
      have other := ends d rfl
      obtain ⟨next, here, others, steps, later, rfl⟩ := run_cons_eq_some.1 swept
      have complete := closes_of_step other steps
      rw [step_of_closes complete other] at steps
      refine ⟨by simpa [closes] using complete, gap, final, .inl rfl, ?_, closed⟩
      exact run_cons_eq_some.2 ⟨next, here, others, steps, later, rfl⟩
  · have exponent : c = 'e' ∨ c = 'E' := by
      obtain ⟨next, here, others, steps, -⟩ := run_cons_eq_some.1 swept
      by_contra other
      rw [not_or] at other
      simp [step, extend, part, noDigit, other] at steps
    refine ⟨?_, digits, final, .inr rfl, ?_, closed⟩
    · rcases exponent with rfl | rfl <;> rfl
    · exact run_digits (List.forall_mem_cons.2 ⟨part, inWord⟩) swept

theorem step_slash {quote : Char} {taken : List Char} (isQuote : quote ≠ '\\') :
    (literal quote taken).step '\\' = some (escape quote (taken ++ ['\\']), []) := by
  simp [step, isQuote.symm]

theorem step_literal {quote : Char} {taken : List Char} (other : c ≠ quote) (plain : c ≠ '\\') :
    (literal quote taken).step c = some (literal quote (taken ++ [c]), []) := by
  simp [step, other, plain]

theorem run_escaped {quote : Char} {taken : List Char} (isQuote : quote ≠ '\\') :
    (literal quote taken).run ('\\' :: c :: cs) =
      (literal quote (taken ++ ['\\', c])).run cs := by
  have escaped : (escape quote (taken ++ ['\\'])).step c =
      some (literal quote (taken ++ ['\\'] ++ [c]), []) := rfl
  rw [run_cons (step_slash isQuote), run_cons escaped, List.append_assoc]
  rfl

theorem run_closeQuote {quote : Char} {taken body rest : List Char} (isQuote : quote ≠ '\\')
    (closed : Lexeme.closeQuote quote cs = some (body, rest)) :
    (literal quote taken).run cs =
      (gap.run rest).map fun (final, others) =>
        (final, String.ofList (taken ++ body) :: others) := by
  fun_induction Lexeme.closeQuote quote cs generalizing taken body rest with
  | case1 => cases closed
  | case2 => cases closed
  | case3 c cs ih =>
    obtain ⟨⟨inner, after⟩, inside, same⟩ := Option.map_eq_some_iff.1 closed
    cases same
    rw [run_escaped isQuote, ih inside]
    simp
  | case4 cs last escapes =>
    cases closed
    simp [run, step]
  | case5 c cs last escapes other ih =>
    obtain ⟨⟨inner, after⟩, inside, same⟩ := Option.map_eq_some_iff.1 closed
    cases same
    have plain : c ≠ '\\' := Lexeme.ne_slash last escapes
    rw [run_cons (step_literal other plain), ih inside]
    simp

/-- A literal that no quote closes is left open at the end. -/
theorem not_closes_of_closeQuote {quote : Char} {taken : List Char} (isQuote : quote ≠ '\\')
    (unclosed : Lexeme.closeQuote quote cs = none)
    (swept : (literal quote taken).run cs = some (final, found)) : final.closes = false := by
  fun_induction Lexeme.closeQuote quote cs generalizing taken found with
  | case1 =>
    cases swept
    rfl
  | case2 =>
    rw [run_cons (step_slash isQuote)] at swept
    cases swept
    rfl
  | case3 c cs ih =>
    rw [run_escaped isQuote] at swept
    exact ih (Option.map_eq_none_iff.1 unclosed) swept
  | case4 => cases unclosed
  | case5 c cs last escapes other ih =>
    have plain : c ≠ '\\' := Lexeme.ne_slash last escapes
    rw [run_cons (step_literal other plain)] at swept
    exact ih (Option.map_eq_none_iff.1 unclosed) swept

end Run

end Sweep

/-- The string literal that a token is. -/
def Token.literal? (token : Token) : Option String :=
  match token.kind with
  | .string literal => some literal
  | _ => none

/-- The string literals among tokens, with their quotes. -/
def literals (tokens : List Token) : List String := tokens.filterMap Token.literal?

/-- Among the tokens stand these literals and no THEN. -/
def Finds (tokens : List Token) (found : List String) : Prop :=
  literals tokens = found ∧ ∀ token ∈ tokens, token.kind ≠ .keyword .thenWord

theorem finds_nil : Finds [] [] := ⟨rfl, by simp⟩

theorem Finds.cons {token : Token} {tokens : List Token} {found : List String}
    (others : Finds tokens found) (noLiteral : token.literal? = none)
    (noThen : token.kind ≠ .keyword .thenWord) : Finds (token :: tokens) found :=
  ⟨by rw [literals, List.filterMap_cons_none noLiteral]; exact others.1,
    List.forall_mem_cons.2 ⟨noThen, others.2⟩⟩

theorem Finds.cons_literal {token : Token} {tokens : List Token} {found : List String}
    {literal : String} (others : Finds tokens found) (kind : token.kind = .string literal) :
    Finds (token :: tokens) (literal :: found) := by
  have isLiteral : token.literal? = some literal := by rw [Token.literal?, kind]
  refine ⟨by rw [literals, List.filterMap_cons_some isLiteral]; exact congrArg _ others.1, ?_⟩
  exact List.forall_mem_cons.2 ⟨by simp [kind], others.2⟩

namespace Lexeme

variable {c : Char} {cs : List Char} {lexeme : Lexeme}

/-- A name is a word that is not reserved. -/
theorem ofWord?_of_ident {cs : List Char} {lexeme : Lexeme} {name : String}
    (found : read? cs = some lexeme) (kind : lexeme.kind = .ident name) :
    Keyword.ofWord? name = none := by
  simp only [read?, Option.orElse_eq_orElse, Option.orElse_eq_or, Option.or_eq_some_iff] at found
  rcases found with number | ⟨_, string | ⟨_, word | ⟨_, symbol⟩⟩⟩
  · unfold number? at number
    simp only at number
    split at number <;> cases number
    cases kind
  · unfold string? at string
    split at string
    · cases string
    · split at string
      · obtain ⟨_, _, rfl⟩ := Option.map_eq_some_iff.1 string
        cases kind
      · cases string
  · unfold word? at word
    split at word
    · cases word
    · split at word <;> cases word
      simp only [wordKind] at kind
      split at kind
      · cases kind
      · rename_i unreserved
        cases kind
        exact unreserved
  · unfold symbol? at symbol
    split at symbol <;> cases symbol <;> cases kind

theorem not_isThen_of_ident {cs : List Char} {lexeme : Lexeme} {name : String}
    (found : read? cs = some lexeme) (kind : lexeme.kind = .ident name) :
    isThen name.toList = false := by
  have unreserved := ofWord?_of_ident found kind
  rw [← Bool.not_eq_true, isThen_iff, unreserved]
  simp

theorem isThen_of_wordKind {word : List Char}
    (kind : wordKind (String.ofList word) = .keyword .thenWord) : isThen word = true := by
  unfold wordKind at kind
  split at kind
  · rename_i keyword found
    cases kind
    rw [← isThen_iff, String.toList_ofList] at found
    exact found
  · cases kind

theorem number?_of_not_isDigit (other : c.isDigit = false) : number? (c :: cs) = none := by
  simp [number?, other]

theorem string?_of_unquoted (unquoted : ¬ (c = '"' ∨ c = '\'')) : string? (c :: cs) = none := by
  simp only [string?, unquoted, ↓reduceIte]

theorem word?_of_not_isWordStart (other : isWordStart c = false) : word? (c :: cs) = none := by
  simp [word?, other]

theorem read?_digit (digit : c.isDigit = true) :
    ∃ lexeme, read? (c :: cs) = some lexeme ∧
      lexeme.kind = .number (String.ofList lexeme.text) ∧ Text.IsNumeral lexeme.text ∧
      lexeme.text ++ lexeme.rest = c :: cs := by
  have taken : (c :: cs).takeWhile Char.isDigit ≠ [] := by simp [digit]
  have found : ∃ lexeme, number? (c :: cs) = some lexeme ∧
      lexeme.kind = .number (String.ofList lexeme.text) := by
    rw [number?]
    simp only [taken, ↓reduceIte]
    exact ⟨_, rfl, rfl⟩
  obtain ⟨lexeme, found, kind⟩ := found
  have numeral := number?_lexed found
  rw [kind, Kind.Lexed, String.toList_ofList] at numeral
  exact ⟨lexeme, by rw [read?, found]; rfl, kind, numeral, (number?_splits found).2⟩

theorem read?_word (start : isWordStart c = true) :
    read? (c :: cs) =
      some ⟨wordKind (String.ofList (c :: cs.takeWhile isWordPart)), c :: cs.takeWhile isWordPart,
        cs.dropWhile isWordPart⟩ := by
  obtain ⟨noDigit, unquoted⟩ := isWordStart_bounds start
  rw [read?, number?_of_not_isDigit noDigit, string?_of_unquoted unquoted]
  simp [word?, start]

/-- Where no word or number starts, and no literal, there is a mark or nothing. -/
theorem read?_mark (other : isWordPart c = false) (unquoted : ¬ (c = '"' ∨ c = '\'')) :
    read? (c :: cs) = symbol? (c :: cs) := by
  rw [isWordPart_eq, Bool.or_eq_false_iff] at other
  rw [read?, number?_of_not_isDigit other.1, string?_of_unquoted unquoted,
    word?_of_not_isWordStart other.2]
  rfl

theorem read?_quote (isQuote : c = '"' ∨ c = '\'') : read? (c :: cs) = string? (c :: cs) := by
  have others : c.isDigit = false ∧ isWordStart c = false ∧ symbol? (c :: cs) = none := by
    rcases isQuote with rfl | rfl <;> exact ⟨rfl, rfl, rfl⟩
  rw [read?, number?_of_not_isDigit others.1, word?_of_not_isWordStart others.2.1, others.2.2]
  cases string? (c :: cs) <;> rfl

/-- A mark is one character, or two of which the second is a mark of its own. -/
theorem symbol?_eq_some (found : symbol? (c :: cs) = some lexeme) :
    Text.isBlank c = false ∧ (∀ start stop, Token.literal? ⟨lexeme.kind, start, stop⟩ = none) ∧
      lexeme.kind ≠ .keyword .thenWord ∧
      (lexeme.rest = cs ∨ cs = '=' :: lexeme.rest ∨ cs = '>' :: lexeme.rest) := by
  generalize whole : c :: cs = text at found
  unfold symbol? at found
  split at found <;> cases found <;> cases whole <;> exact ⟨rfl, fun _ _ => rfl, nofun, by simp⟩

theorem literal?_wordKind {word : String} {start stop : Nat} :
    Token.literal? ⟨wordKind word, start, stop⟩ = none := by
  unfold wordKind
  split <;> rfl

/-- Only a digit, a quote, a letter or a mark starts a token. -/
theorem isBlank_of_read? (found : read? (c :: cs) = some lexeme) : Text.isBlank c = false := by
  by_cases part : isWordPart c = true
  · exact isBlank_of_isPlain (isPlain_of_isWordPart part)
  · by_cases isQuote : c = '"' ∨ c = '\''
    · rcases isQuote with rfl | rfl <;> rfl
    · rw [read?_mark (by simpa using part) isQuote] at found
      exact (symbol?_eq_some found).1

end Lexeme

section Lenient

variable {c : Char} {cs : List Char}

theorem lenientTokensFrom_skip (start : Nat) (unread : Lexeme.read? (c :: cs) = none) :
    lenientTokensFrom start (c :: cs) = lenientTokensFrom (start + c.utf8Size) cs := by
  rw [lenientTokensFrom]
  split
  · rfl
  · split
    · rfl
    · simp_all

theorem lenientTokensFrom_read (start : Nat) {lexeme : Lexeme}
    (found : Lexeme.read? (c :: cs) = some lexeme) :
    lenientTokensFrom start (c :: cs) =
      ⟨lexeme.kind, start, start + Text.byteSize lexeme.text⟩ ::
        lenientTokensFrom (start + Text.byteSize lexeme.text) lexeme.rest := by
  rw [lenientTokensFrom, if_neg (by simp [Lexeme.isBlank_of_read? found])]
  split
  · simp_all
  · simp_all

/-- The lexer finds in the text what a sweep hands out that goes through it to the end. The sweep
may start behind a number, where an exponent without digits is a word to the lexer. -/
def Agrees (cs : List Char) : Prop :=
  ∀ ⦃place final : Sweep⦄ ⦃found : List String⦄ (start : Nat),
    place = .gap ∨ place = .digits → place.run cs = some (final, found) → final.closes = true →
      Finds (lenientTokensFrom start cs) found

section Agrees

variable (behind : ∀ rest : List Char, rest.length < (c :: cs).length → Agrees rest)

include behind

theorem agrees_digit (digit : c.isDigit = true) : Agrees (c :: cs) := by
  intro place final found start outside swept closed
  obtain ⟨lexeme, read, kind, numeral, whole⟩ := @Lexeme.read?_digit c cs digit
  rw [← whole, Sweep.run_isNumeral numeral outside] at swept
  rw [lenientTokensFrom_read start read]
  apply Finds.cons
  · exact behind _ (Lexeme.read?_shorter read) _ (.inr rfl) swept closed
  · simp [Token.literal?, kind]
  · simp [kind]

theorem agrees_word (first : Lexeme.isWordStart c = true) : Agrees (c :: cs) := by
  intro place final found start outside swept closed
  have read := @Lexeme.read?_word c cs first
  have whole : c :: cs = c :: cs.takeWhile Lexeme.isWordPart ++ cs.dropWhile Lexeme.isWordPart := by
    simp
  rw [whole] at swept
  have ends : ∀ d ∈ (cs.dropWhile Lexeme.isWordPart).head?, Lexeme.isWordPart d = false := by
    intro d member
    have stops := List.head?_dropWhile_not Lexeme.isWordPart cs
    rwa [member] at stops
  obtain ⟨noThen, next, last, outside, later, closed⟩ :=
    Sweep.run_of_word outside first (List.all_eq_true.1 List.all_takeWhile) ends swept closed
  rw [lenientTokensFrom_read start read]
  apply Finds.cons
  · exact behind _ (Lexeme.read?_shorter read) _ outside later closed
  · exact Lexeme.literal?_wordKind
  · intro reserved
    rw [Lexeme.isThen_of_wordKind reserved] at noThen
    cases noThen

theorem agrees_quote (isQuote : c = '"' ∨ c = '\'') : Agrees (c :: cs) := by
  intro place final found start outside swept closed
  have slash : c ≠ '\\' := by rcases isQuote with rfl | rfl <;> decide
  have opens : place.step c = some (.literal c [c], []) := by
    rcases outside with rfl | rfl <;> rcases isQuote with rfl | rfl <;> rfl
  rw [Sweep.run_cons opens] at swept
  cases quoted : Lexeme.closeQuote c cs with
  | none =>
    rw [Sweep.not_closes_of_closeQuote slash quoted swept] at closed
    cases closed
  | some parts =>
    obtain ⟨body, rest⟩ := parts
    rw [Sweep.run_closeQuote slash quoted] at swept
    obtain ⟨⟨_, others⟩, later, same⟩ := Option.map_eq_some_iff.1 swept
    cases same
    have read : Lexeme.read? (c :: cs) =
        some ⟨.string (String.ofList (c :: body)), c :: body, rest⟩ := by
      rw [Lexeme.read?_quote isQuote, Lexeme.string?, if_pos isQuote, quoted]
      rfl
    rw [lenientTokensFrom_read start read]
    exact (behind rest (Lexeme.read?_shorter read) _ (.inl rfl) later closed).cons_literal rfl

theorem agrees_mark (part : Lexeme.isWordPart c = false) (unquoted : ¬ (c = '"' ∨ c = '\'')) :
    Agrees (c :: cs) := by
  intro place final found start outside swept closed
  have closes : place.closes = true := by rcases outside with rfl | rfl <;> rfl
  obtain ⟨next, here, others, steps, onward, rfl⟩ := Sweep.run_cons_eq_some.1 swept
  obtain ⟨rfl, rfl⟩ := Sweep.step_mark closes part unquoted steps
  rw [List.nil_append]
  cases read : Lexeme.read? (c :: cs) with
  | none =>
    rw [lenientTokensFrom_skip start read]
    exact behind cs (by simp) _ (.inl rfl) onward closed
  | some lexeme =>
    have symbol := read
    rw [Lexeme.read?_mark part unquoted] at symbol
    obtain ⟨-, noLiteral, noThen, rest⟩ := Lexeme.symbol?_eq_some symbol
    have later : Sweep.gap.run lexeme.rest = some (final, others) := by
      rcases rest with same | second | second
      · rwa [same]
      · rw [second] at onward
        exact (Sweep.run_cons rfl).symm.trans onward
      · rw [second] at onward
        exact (Sweep.run_cons rfl).symm.trans onward
    rw [lenientTokensFrom_read start read]
    exact (behind _ (Lexeme.read?_shorter read) _ (.inl rfl) later closed).cons
      (noLiteral _ _) noThen

end Agrees

theorem agrees (cs : List Char) : Agrees cs := by
  induction length : cs.length using Nat.strong_induction_on generalizing cs with
  | _ _ ih =>
    cases cs with
    | nil =>
      intro place final found start outside swept closed
      cases swept
      rw [lenientTokensFrom]
      exact finds_nil
    | cons c cs =>
      have behind (rest : List Char) (shorter : rest.length < (c :: cs).length) : Agrees rest :=
        ih _ (length ▸ shorter) rest rfl
      by_cases part : Lexeme.isWordPart c = true
      · rw [Lexeme.isWordPart_eq, Bool.or_eq_true] at part
        rcases part with digit | first
        · exact agrees_digit behind digit
        · exact agrees_word behind first
      · by_cases isQuote : c = '"' ∨ c = '\''
        · exact agrees_quote behind isQuote
        · exact agrees_mark behind (by simpa using part) isQuote

end Lenient

end Formulary
