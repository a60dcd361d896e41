import Formulary.Proofs.Sweep

set_option autoImplicit false

namespace Formulary

/-- A character that goes on no token in front of it. -/
structure IsBoundary (mark : Char) : Prop where
  notPart : Lexeme.isWordPart mark = false
  notMark : mark ∉ ['.', '+', '-', '=', '>']

theorem isBoundary_space : IsBoundary ' ' := ⟨rfl, by decide⟩

theorem isBoundary_comma : IsBoundary ',' := ⟨rfl, by decide⟩

theorem isBoundary_openParen : IsBoundary '(' := ⟨rfl, by decide⟩

theorem isBoundary_closeParen : IsBoundary ')' := ⟨rfl, by decide⟩

namespace Lexeme

variable {mark : Char} (cs more : List Char)

theorem takeWhile_boundary {test : Char → Bool} (stops : test mark = false) :
    (cs ++ mark :: more).takeWhile test = cs.takeWhile test := by
  induction cs with
  | nil => simp [stops]
  | cons c cs ih => simp only [List.cons_append, List.takeWhile_cons, ih]

theorem dropWhile_boundary {test : Char → Bool} (stops : test mark = false) :
    (cs ++ mark :: more).dropWhile test = cs.dropWhile test ++ mark :: more := by
  induction cs with
  | nil => simp [stops]
  | cons c cs ih =>
    simp only [List.cons_append, List.dropWhile_cons, ih]
    split <;> rfl

variable (boundary : IsBoundary mark)

include boundary

omit cs more in
theorem not_isDigit_of_boundary : mark.isDigit = false := by
  have notPart := boundary.notPart
  rw [isWordPart_eq, Bool.or_eq_false_iff] at notPart
  exact notPart.1

theorem fraction_boundary :
    fraction (cs ++ mark :: more) = ((fraction cs).1, (fraction cs).2 ++ mark :: more) := by
  have digit := not_isDigit_of_boundary boundary
  have notMark := boundary.notMark
  rcases cs with _ | ⟨c, cs⟩
  · unfold fraction
    split <;> simp_all
  · by_cases point : c = '.'
    · subst point
      simp only [List.cons_append, fraction, takeWhile_boundary _ _ digit,
        dropWhile_boundary _ _ digit]
      split <;> rfl
    · unfold fraction
      split <;> simp_all

theorem sign_boundary :
    sign (cs ++ mark :: more) = ((sign cs).1, (sign cs).2 ++ mark :: more) := by
  have notMark := boundary.notMark
  rcases cs with _ | ⟨c, cs⟩
  · unfold sign
    split <;> simp_all
  · unfold sign
    split <;> simp_all

theorem exponent_boundary :
    exponent (cs ++ mark :: more) = ((exponent cs).1, (exponent cs).2 ++ mark :: more) := by
  have digit := not_isDigit_of_boundary boundary
  have notPart := boundary.notPart
  rcases cs with _ | ⟨c, cs⟩
  · have letter : ¬ (mark = 'e' ∨ mark = 'E') := by
      rintro (rfl | rfl) <;> cases notPart
    simp only [List.nil_append, exponent, letter, ↓reduceIte]
  · simp only [List.cons_append, exponent, sign_boundary _ _ boundary,
      takeWhile_boundary _ _ digit, dropWhile_boundary _ _ digit]
    split
    · split <;> rfl
    · rfl

/-- The lexeme with more text behind it. -/
def followedBy (lexeme : Lexeme) (text : List Char) : Lexeme :=
  { lexeme with rest := lexeme.rest ++ text }

theorem number?_boundary :
    number? (cs ++ mark :: more) =
      (number? cs).map fun lexeme => lexeme.followedBy (mark :: more) := by
  have digit := not_isDigit_of_boundary boundary
  simp only [number?, takeWhile_boundary _ _ digit, dropWhile_boundary _ _ digit,
    fraction_boundary _ _ boundary, exponent_boundary _ _ boundary]
  split <;> rfl

omit boundary in
theorem closeQuote_extend {quote : Char} {body rest : List Char}
    (found : closeQuote quote cs = some (body, rest)) :
    closeQuote quote (cs ++ more) = some (body, rest ++ more) := by
  fun_induction closeQuote quote cs generalizing body rest with
  | case1 => cases found
  | case2 => cases found
  | case3 c cs ih =>
    obtain ⟨⟨inner, after⟩, inside, same⟩ := Option.map_eq_some_iff.1 found
    cases same
    simp [closeQuote, ih inside]
  | case4 cs last escapes =>
    cases found
    simp [closeQuote_cons (ne_slash last escapes)]
  | case5 c cs last escapes other ih =>
    obtain ⟨⟨inner, after⟩, inside, same⟩ := Option.map_eq_some_iff.1 found
    cases same
    simp [closeQuote_cons (ne_slash last escapes), other, ih inside]

theorem symbol?_boundary {c : Char} {lexeme : Lexeme} (found : symbol? (c :: cs) = some lexeme) :
    symbol? (c :: cs ++ mark :: more) = some (lexeme.followedBy (mark :: more)) := by
  -- what follows the first character of a longer sign is still not the second one
  have apart {second : Char} (sign : second ∈ ['=', '>'])
      (before : ∀ rest, cs = second :: rest → False) (rest : List Char) :
      cs ++ mark :: more = second :: rest → False := by
    intro same
    cases cs with
    | nil =>
      obtain ⟨rfl, -⟩ := List.cons.inj same
      exact boundary.notMark (by simp_all)
    | cons d cs =>
      obtain ⟨rfl, -⟩ := List.cons.inj same
      exact before cs rfl
  generalize whole : c :: cs = text at found
  unfold symbol? at found
  split at found <;> cases found <;> cases whole <;> try rfl
  · rename_i notArrow
    rw [List.cons_append, symbol?]
    · rfl
    · exact apart (by simp) notArrow
  · rename_i notEqual notArrow
    rw [List.cons_append, symbol?]
    · rfl
    · exact apart (by simp) notEqual
    · exact apart (by simp) notArrow
  · rename_i notEqual notGreater
    rw [List.cons_append, symbol?]
    · rfl
    · exact apart (by simp) notEqual
    · exact apart (by simp) notGreater
  · rename_i notEqual
    rw [List.cons_append, symbol?]
    · rfl
    · exact apart (by simp) notEqual

/-- A lexeme does not change when a text follows that starts with a boundary. -/
theorem read?_boundary {lexeme : Lexeme} (found : read? cs = some lexeme) :
    read? (cs ++ mark :: more) = some (lexeme.followedBy (mark :: more)) := by
  cases cs with
  | nil => cases found
  | cons c cs =>
    by_cases digit : c.isDigit = true
    · obtain ⟨number, isNumber⟩ : ∃ number, number? (c :: cs) = some number := by
        simp [number?, digit]
      rw [read?, isNumber] at found
      cases found
      rw [read?, number?_boundary _ _ boundary, isNumber]
      rfl
    · by_cases start : isWordStart c = true
      · rw [read?_word start] at found
        rw [List.cons_append, read?_word start, takeWhile_boundary _ _ boundary.notPart,
          dropWhile_boundary _ _ boundary.notPart]
        cases found
        rfl
      · have notPart : isWordPart c = false := by
          simp [isWordPart_eq, digit, start]
        by_cases isQuote : c = '"' ∨ c = '\''
        · rw [read?_quote isQuote, string?, if_pos isQuote] at found
          obtain ⟨⟨body, rest⟩, inside, rfl⟩ := Option.map_eq_some_iff.1 found
          rw [List.cons_append, read?_quote isQuote, string?, if_pos isQuote,
            closeQuote_extend _ _ inside]
          rfl
        · rw [read?_mark notPart isQuote] at found
          rw [List.cons_append, read?_mark notPart isQuote]
          exact symbol?_boundary cs more boundary found

end Lexeme

/-- The text gives tokens of these kinds, wherever it starts in a formula. -/
def Spells (cs : List Char) (kinds : List Kind) : Prop :=
  ∀ start, ∃ tokens, tokensFrom start cs = .ok tokens ∧ tokens.map Token.kind = kinds

namespace Spells

variable {cs : List Char} {kinds : List Kind}

theorem nil : Spells [] [] := fun start => ⟨[], by rw [tokensFrom], rfl⟩

theorem separator {c : Char} (separates : isSeparator c = true) (behind : Spells cs kinds) :
    Spells (c :: cs) kinds := by
  intro start
  obtain ⟨tokens, lexed, same⟩ := behind (start + c.utf8Size)
  exact ⟨tokens, by rw [tokensFrom, if_pos separates, lexed], same⟩

theorem lexeme {c : Char} {kind : Kind} {text rest : List Char} (other : isSeparator c = false)
    (found : Lexeme.read? (c :: cs) = some ⟨kind, text, rest⟩) (behind : Spells rest kinds) :
    Spells (c :: cs) (kind :: kinds) := by
  intro start
  obtain ⟨tokens, lexed, same⟩ := behind (start + Text.byteSize text)
  refine ⟨⟨kind, start, start + Text.byteSize text⟩ :: tokens, ?_, by simp [same]⟩
  rw [tokensFrom, if_neg (by simp [other])]
  split
  · simp_all
  · simp_all [Except.map]

end Spells

/-- A text in front of a boundary, or at the end, gives the tokens that it gives alone. -/
theorem spells_append {start : Nat} {cs rest : List Char} {tokens : List Token} {kinds : List Kind}
    (lexed : tokensFrom start cs = .ok tokens) (ends : ∀ mark ∈ rest.head?, IsBoundary mark)
    (behind : Spells rest kinds) : Spells (cs ++ rest) (tokens.map Token.kind ++ kinds) := by
  fun_induction tokensFrom start cs generalizing tokens with
  | case1 =>
    cases lexed
    exact behind
  | case2 start c cs separates ih => exact .separator separates (ih lexed)
  | case3 => cases lexed
  | case4 start c cs other lexeme found stop =>
    rename_i ih
    cases more : tokensFrom stop lexeme.rest with
    | error fault =>
      rw [more] at lexed
      cases lexed
    | ok others =>
      rw [more] at lexed
      cases lexed
      have again : Lexeme.read? (c :: (cs ++ rest)) = some (lexeme.followedBy rest) := by
        cases rest with
        | nil => simpa [Lexeme.followedBy] using found
        | cons mark rest => exact Lexeme.read?_boundary (c :: cs) rest (ends mark rfl) found
      exact .lexeme (by simpa using other) again (ih more)

theorem spells_of_tokenize {formula : String} {tokens : List Token}
    (lexed : tokenize formula = .ok tokens) : Spells formula.toList (tokens.map Token.kind) := by
  simpa using spells_append lexed (by simp) Spells.nil

end Formulary
