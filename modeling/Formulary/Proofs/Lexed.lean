import Formulary.Token.Lexer

set_option autoImplicit false

namespace Formulary

namespace Text

def IsWord (cs : List Char) : Prop :=
  ∃ first rest, cs = first :: rest ∧ Lexeme.isWordStart first = true ∧
    ∀ c ∈ rest, Lexeme.isWordPart c = true

def IsDigits (cs : List Char) : Prop := cs ≠ [] ∧ cs.all Char.isDigit = true

/-- A point with digits behind it, or nothing. -/
def IsFraction (cs : List Char) : Prop := cs = [] ∨ ∃ digits, cs = '.' :: digits ∧ IsDigits digits

/-- The mark of an exponent, an optional sign and digits, or nothing. -/
def IsScale (cs : List Char) : Prop :=
  cs = [] ∨ ∃ mark sign digits, cs = mark :: (sign ++ digits) ∧ (mark = 'e' ∨ mark = 'E') ∧
    (sign = [] ∨ sign = ['+'] ∨ sign = ['-']) ∧ IsDigits digits

/-- An unsigned numeral. -/
def IsNumeral (cs : List Char) : Prop :=
  ∃ whole fraction scale, cs = whole ++ (fraction ++ scale) ∧ IsDigits whole ∧
    IsFraction fraction ∧ IsScale scale

/-- A quote and the characters up to the first quote that closes it. -/
def IsQuoted (cs : List Char) : Prop :=
  ∃ quote body, cs = quote :: body ∧ (quote = '"' ∨ quote = '\'') ∧
    Lexeme.closeQuote quote body = some (body, [])

end Text

/-- The text in a token is one that the lexer takes for its kind. -/
def Kind.Lexed : Kind → Prop
  | .ident name => Text.IsWord name.toList
  | .number digits => Text.IsNumeral digits.toList
  | .string literal => Text.IsQuoted literal.toList
  | _ => True

/-- Tokens that all hold what the lexer takes for their kinds. -/
def Lexed (tokens : List Token) : Prop := ∀ token ∈ tokens, token.kind.Lexed

@[simp] theorem lexed_nil : Lexed [] := by simp [Lexed]

@[simp] theorem lexed_cons {token : Token} {tokens : List Token} :
    Lexed (token :: tokens) ↔ token.kind.Lexed ∧ Lexed tokens := List.forall_mem_cons

@[simp] theorem lexed_append {first second : List Token} :
    Lexed (first ++ second) ↔ Lexed first ∧ Lexed second := List.forall_mem_append

namespace Text

/-- Digits are told apart from what follows them. -/
private theorem span_digits {digits rest : List Char} (only : digits.all Char.isDigit = true)
    (ends : rest.takeWhile Char.isDigit = []) :
    (digits ++ rest).takeWhile Char.isDigit = digits ∧
      (digits ++ rest).dropWhile Char.isDigit = rest := by
  have each := List.all_eq_true.1 only
  have rest_eq : rest.dropWhile Char.isDigit = rest := by
    have whole := List.takeWhile_append_dropWhile (p := Char.isDigit) (l := rest)
    rwa [ends] at whole
  rw [List.takeWhile_append_of_pos each, List.dropWhile_append_of_pos each, ends, rest_eq]
  exact ⟨List.append_nil digits, rfl⟩

private theorem IsScale.ends {cs : List Char} (scale : IsScale cs) :
    cs.takeWhile Char.isDigit = [] := by
  rcases scale with rfl | ⟨mark, sign, digits, rfl, rfl | rfl, -⟩ <;> rfl

private theorem IsScale.isExponent {cs : List Char} (scale : IsScale cs) :
    isExponent cs = true := by
  rcases scale with rfl | ⟨mark, sign, digits, rfl, isMark, signed, nonempty, only⟩
  · rfl
  · have marked : (mark == 'e' || mark == 'E') = true := by simpa using isMark
    obtain ⟨first, rest, rfl⟩ := List.exists_cons_of_ne_nil nonempty
    have digit : first.isDigit = true := List.all_eq_true.1 only first (by simp)
    rcases signed with rfl | rfl | rfl
    · have notSign : first ≠ '+' ∧ first ≠ '-' := by
        constructor <;> rintro rfl <;> cases digit
      have unsigned : Text.isExponent (mark :: ([] ++ first :: rest)) =
          ((mark == 'e' || mark == 'E') && !(first :: rest).isEmpty &&
            (first :: rest).all Char.isDigit) := by
        simp only [Text.isExponent, List.nil_append]
        split <;> simp_all
      rw [unsigned, marked, only]
      rfl
    · simp [Text.isExponent, marked, only]
    · simp [Text.isExponent, marked, only]

/-- What the lexer takes for a number reads as one. -/
theorem isUnsignedNumber_of_isNumeral {text : String} (numeral : IsNumeral text.toList) :
    isUnsignedNumber text = true := by
  obtain ⟨whole, fraction, scale, spelled, ⟨nonempty, only⟩, point, scaled⟩ := numeral
  have decimal : isDecimal text.toList = true := by
    rcases point with rfl | ⟨digits, rfl, -, digitsOnly⟩
    · obtain ⟨front, back⟩ := span_digits only scaled.ends
      have exponent := scaled.isExponent
      rw [spelled, List.nil_append, isDecimal, front, back]
      rcases scaled with rfl | ⟨mark, sign, digits, rfl, rfl | rfl, -⟩
      all_goals simpa [nonempty] using exponent
    · obtain ⟨front, back⟩ := @span_digits whole ('.' :: digits ++ scale) only rfl
      obtain ⟨inner, outer⟩ := span_digits digitsOnly scaled.ends
      rw [spelled, isDecimal, front, back]
      simp [nonempty, inner, outer, scaled.isExponent]
  obtain ⟨first, rest, rfl⟩ := List.exists_cons_of_ne_nil nonempty
  have digit : first.isDigit = true := List.all_eq_true.1 only first (by simp)
  unfold isUnsignedNumber
  split
  · rename_i plus
    rw [spelled] at plus
    cases plus
    cases digit
  · simp [decimal]

end Text

namespace Lexeme

open Text

theorem isWordPart_of_isWordStart {c : Char} (start : isWordStart c = true) :
    isWordPart c = true := by
  simp only [isWordStart, isWordPart, Bool.or_eq_true] at start ⊢
  rcases start with letter | underscore
  · exact .inl (by simp [Char.isAlphanum, letter])
  · exact .inr underscore

private theorem isDigits_takeWhile {cs : List Char} (nonempty : cs.takeWhile Char.isDigit ≠ []) :
    IsDigits (cs.takeWhile Char.isDigit) :=
  ⟨nonempty, List.all_takeWhile⟩

private theorem isFraction_fraction (cs : List Char) : IsFraction (fraction cs).1 := by
  unfold fraction
  split
  · split
    · exact .inl rfl
    · rename_i digits
      exact .inr ⟨_, rfl, isDigits_takeWhile digits⟩
  · exact .inl rfl

private theorem sign_cases (cs : List Char) :
    (sign cs).1 = [] ∨ (sign cs).1 = ['+'] ∨ (sign cs).1 = ['-'] := by
  unfold sign
  split <;> simp

private theorem isScale_exponent (cs : List Char) : IsScale (exponent cs).1 := by
  unfold exponent
  split
  · exact .inl rfl
  · split
    · rename_i mark
      simp only
      split
      · exact .inl rfl
      · rename_i digits
        exact .inr ⟨_, _, _, rfl, mark, sign_cases _, isDigits_takeWhile digits⟩
    · exact .inl rfl

theorem number?_lexed {cs : List Char} {lexeme : Lexeme} (found : number? cs = some lexeme) :
    lexeme.kind.Lexed := by
  unfold number? at found
  simp only at found
  split at found
  · cases found
  · rename_i digits
    obtain rfl := Option.some.inj found
    simp only [Kind.Lexed, String.toList_ofList, List.append_assoc]
    exact ⟨_, _, _, rfl, isDigits_takeWhile digits, isFraction_fraction _, isScale_exponent _⟩

theorem closeQuote_cons {quote c : Char} (plain : c ≠ '\\') (cs : List Char) :
    closeQuote quote (c :: cs) =
      if c = quote then some ([c], cs)
      else (closeQuote quote cs).map fun (body, rest) => (c :: body, rest) :=
  closeQuote.eq_4 quote c cs (fun slash _ => plain slash) (fun _ _ slash _ => plain slash)

/-- A character that neither escapes another nor stands last as a slash is no slash. -/
theorem ne_slash {c : Char} {cs : List Char} (last : c = '\\' → cs = [] → False)
    (escapes : ∀ d ds, c = '\\' → cs = d :: ds → False) : c ≠ '\\' := by
  intro slash
  cases cs with
  | nil => exact last slash rfl
  | cons d ds => exact escapes d ds slash rfl

/-- A literal ends where its characters do, whatever stood behind it. -/
theorem closeQuote_self {quote : Char} {cs body rest : List Char}
    (found : closeQuote quote cs = some (body, rest)) :
    closeQuote quote body = some (body, []) := by
  fun_induction closeQuote quote cs generalizing body rest with
  | case1 => cases found
  | case2 => cases found
  | case3 c cs ih =>
    obtain ⟨⟨inner, after⟩, inside, same⟩ := Option.map_eq_some_iff.1 found
    cases same
    simp [closeQuote, ih inside]
  | case4 cs last escapes =>
    cases found
    simp [closeQuote_cons (ne_slash last escapes)]
  | case5 c cs last escapes other ih =>
    obtain ⟨⟨inner, after⟩, inside, same⟩ := Option.map_eq_some_iff.1 found
    cases same
    simp [closeQuote_cons (ne_slash last escapes), other, ih inside]

theorem string?_lexed {cs : List Char} {lexeme : Lexeme} (found : string? cs = some lexeme) :
    lexeme.kind.Lexed := by
  unfold string? at found
  split at found
  · cases found
  · rename_i quote cs
    split at found
    · rename_i isQuote
      obtain ⟨⟨body, rest⟩, inside, rfl⟩ := Option.map_eq_some_iff.1 found
      simp only [Kind.Lexed, String.toList_ofList]
      exact ⟨quote, body, rfl, isQuote, closeQuote_self inside⟩
    · cases found

theorem word?_lexed {cs : List Char} {lexeme : Lexeme} (found : word? cs = some lexeme) :
    lexeme.kind.Lexed := by
  unfold word? at found
  split at found
  · cases found
  · rename_i c cs
    split at found
    · rename_i start
      obtain rfl := Option.some.inj found
      simp only [wordKind]
      split
      · trivial
      · simp only [Kind.Lexed, String.toList_ofList]
        exact ⟨c, _, rfl, start, List.all_eq_true.1 List.all_takeWhile⟩
    · cases found

theorem symbol?_lexed {cs : List Char} {lexeme : Lexeme} (found : symbol? cs = some lexeme) :
    lexeme.kind.Lexed := by
  unfold symbol? at found
  split at found <;> cases found <;> trivial

theorem read?_lexed {cs : List Char} {lexeme : Lexeme} (found : read? cs = some lexeme) :
    lexeme.kind.Lexed := by
  simp only [read?, Option.orElse_eq_orElse, Option.orElse_eq_or, Option.or_eq_some_iff] at found
  rcases found with number | ⟨_, string | ⟨_, word | ⟨_, symbol⟩⟩⟩
  · exact number?_lexed number
  · exact string?_lexed string
  · exact word?_lexed word
  · exact symbol?_lexed symbol

end Lexeme

/-- What holds of every lexeme holds of every token. -/
theorem tokensFrom_forall {holds : Kind → Prop}
    (each : ∀ {cs : List Char} {lexeme : Lexeme}, Lexeme.read? cs = some lexeme → holds lexeme.kind)
    {start : Nat} {cs : List Char} {tokens : List Token}
    (success : tokensFrom start cs = .ok tokens) : ∀ token ∈ tokens, holds token.kind := by
  fun_induction tokensFrom start cs generalizing tokens with
  | case1 =>
    cases success
    simp
  | case2 start c cs separator ih => exact ih success
  | case3 => cases success
  | case4 start c cs separator lexeme found stop =>
    rename_i ih
    cases behind : tokensFrom stop lexeme.rest with
    | error fault =>
      rw [behind] at success
      cases success
    | ok rest =>
      rw [behind] at success
      cases success
      exact List.forall_mem_cons.2 ⟨each found, ih behind⟩

theorem tokenize_lexed {formula : String} {tokens : List Token}
    (success : tokenize formula = .ok tokens) : Lexed tokens :=
  tokensFrom_forall Lexeme.read?_lexed success

end Formulary
