import Mathlib
import Formulary.Proofs.Boundaries

set_option autoImplicit false

namespace Formulary

namespace Lexeme

/-- A way to cut a text that loses nothing of it and that looks no further than it has to: what is
left does not matter to what is taken. -/
structure IsLocal (cut : List Char → List Char × List Char) : Prop where
  append : ∀ cs, (cut cs).1 ++ (cut cs).2 = cs
  truncate : ∀ {taken middle more : List Char},
    cut (taken ++ (middle ++ more)) = (taken, middle ++ more) →
      cut (taken ++ middle) = (taken, middle)

/-- Two cuts, the second of what the first one leaves. -/
def cutTwice (first second : List Char → List Char × List Char) (cs : List Char) :
    List Char × List Char :=
  ((first cs).1 ++ (second (first cs).2).1, (second (first cs).2).2)

theorem IsLocal.twice {first second : List Char → List Char × List Char} (before : IsLocal first)
    (behind : IsLocal second) : IsLocal (cutTwice first second) := by
  refine ⟨fun cs => ?_, fun {taken middle more} found => ?_⟩
  · rw [cutTwice, List.append_assoc, behind.append, before.append]
  · cases firstCut : first (taken ++ (middle ++ more)) with
    | mk one rest =>
      cases secondCut : second rest with
      | mk two left =>
        have lossless := behind.append rest
        simp only [cutTwice, firstCut, secondCut, Prod.mk.injEq] at found lossless
        obtain ⟨rfl, rfl⟩ := found
        obtain rfl := lossless
        rw [List.append_assoc, ← List.append_assoc two] at firstCut
        have again := before.truncate firstCut
        rw [List.append_assoc, cutTwice, again, behind.truncate secondCut]

theorem isLocal_span (test : Char → Bool) :
    IsLocal fun cs => (cs.takeWhile test, cs.dropWhile test) := by
  refine ⟨fun cs => List.takeWhile_append_dropWhile, fun {taken middle more} found => ?_⟩
  induction taken with
  | nil =>
    cases middle with
    | nil => rfl
    | cons c middle =>
      have fails : test c = false := by
        by_contra passes
        simp [passes] at found
      simp [fails]
  | cons c taken ih =>
    have passes : test c = true := by
      by_contra fails
      simp [fails] at found
    simp_all

theorem isLocal_sign : IsLocal sign := by
  refine ⟨sign_append, fun {taken middle more} found => ?_⟩
  unfold sign at found ⊢
  rcases taken with _ | ⟨c, taken⟩
  · rcases middle with _ | ⟨c, middle⟩
    · rfl
    · simp only [List.nil_append, List.cons_append] at found ⊢
      split at found <;> split <;> simp_all
  · simp only [List.cons_append] at found ⊢
    split at found <;> split <;> simp_all

theorem takeWhile_eq_nil_of_append {test : Char → Bool} {cs more : List Char}
    (empty : (cs ++ more).takeWhile test = []) : cs.takeWhile test = [] := by
  cases cs with
  | nil => rfl
  | cons c cs =>
    have fails : test c = false := by
      by_contra passes
      simp [passes] at empty
    simp [fails]

theorem isLocal_fraction : IsLocal fraction := by
  refine ⟨fraction_append, fun {taken middle more} found => ?_⟩
  rcases taken with _ | ⟨c, taken⟩
  · rcases middle with _ | ⟨c, middle⟩
    · rfl
    · by_cases point : c = '.'
      · subst point
        have empty : (middle ++ more).takeWhile Char.isDigit = [] := by
          by_contra nonempty
          simp [fraction, nonempty] at found
        simp [fraction, takeWhile_eq_nil_of_append empty]
      · unfold fraction
        split <;> simp_all
  · have point : c = '.' := by
      by_contra other
      unfold fraction at found
      split at found <;> simp_all
    subst point
    have nonempty : (taken ++ (middle ++ more)).takeWhile Char.isDigit ≠ [] := by
      intro empty
      simp [fraction, empty] at found
    simp only [List.cons_append, fraction, nonempty, ↓reduceIte, Prod.mk.injEq, List.cons.injEq,
      true_and] at found
    obtain ⟨digits, left⟩ := found
    have again := (isLocal_span Char.isDigit).truncate (Prod.ext digits left)
    obtain ⟨digitsAgain, leftAgain⟩ := Prod.mk.inj again
    rw [digits] at nonempty
    simp [fraction, digitsAgain, leftAgain, nonempty]

theorem sign_cons (c : Char) (cs more : List Char) :
    (sign (c :: cs ++ more)).2 = (sign (c :: cs)).2 ++ more := by
  unfold sign
  simp only [List.cons_append]
  split <;> split <;> simp_all

theorem isLocal_exponent : IsLocal exponent := by
  refine ⟨exponent_append, fun {taken middle more} found => ?_⟩
  rcases taken with _ | ⟨c, taken⟩
  · rcases middle with _ | ⟨c, middle⟩
    · rfl
    · by_cases mark : c = 'e' ∨ c = 'E'
      · have empty : (sign (middle ++ more)).2.takeWhile Char.isDigit = [] := by
          by_contra nonempty
          simp [exponent, mark, nonempty] at found
        have still : (sign middle).2.takeWhile Char.isDigit = [] := by
          cases middle with
          | nil => rfl
          | cons d middle =>
            rw [sign_cons] at empty
            exact takeWhile_eq_nil_of_append empty
        simp [exponent, mark, still]
      · simp [exponent, mark]
  · have mark : c = 'e' ∨ c = 'E' := by
      by_contra other
      simp [exponent, other] at found
    cases signed : sign (taken ++ (middle ++ more)) with
    | mk plus rest =>
      have nonempty : rest.takeWhile Char.isDigit ≠ [] := by
        intro empty
        simp [exponent, mark, signed, empty] at found
      simp only [List.cons_append, exponent, mark, signed, nonempty, ↓reduceIte, Prod.mk.injEq,
        List.cons.injEq, true_and] at found
      obtain ⟨rfl, left⟩ := found
      have whole := List.takeWhile_append_dropWhile (p := Char.isDigit) (l := rest)
      rw [left] at whole
      generalize digits : rest.takeWhile Char.isDigit = few at *
      obtain rfl := whole
      rw [List.append_assoc, ← List.append_assoc few] at signed
      have again := (isLocal_span Char.isDigit).truncate (Prod.ext digits left)
      obtain ⟨digitsAgain, leftAgain⟩ := Prod.mk.inj again
      simp [exponent, mark, isLocal_sign.truncate signed, digitsAgain, leftAgain, nonempty]

/-- A numeral and what follows it. -/
def numeral : List Char → List Char × List Char :=
  cutTwice (cutTwice (fun cs => (cs.takeWhile Char.isDigit, cs.dropWhile Char.isDigit)) fraction)
    exponent

theorem isLocal_numeral : IsLocal numeral :=
  ((isLocal_span Char.isDigit).twice isLocal_fraction).twice isLocal_exponent

theorem read?_numeral {c : Char} (digit : c.isDigit = true) (cs : List Char) :
    read? (c :: cs) = some ⟨.number (String.ofList (numeral (c :: cs)).1), (numeral (c :: cs)).1,
      (numeral (c :: cs)).2⟩ := by
  have nonempty : (c :: cs).takeWhile Char.isDigit ≠ [] := by simp [digit]
  have found : number? (c :: cs) = some ⟨.number (String.ofList (numeral (c :: cs)).1),
      (numeral (c :: cs)).1, (numeral (c :: cs)).2⟩ := if_neg nonempty
  rw [read?, found]
  rfl

theorem symbol?_truncate {kind : Kind} {text middle more : List Char}
    (found : symbol? (text ++ (middle ++ more)) = some ⟨kind, text, middle ++ more⟩) :
    symbol? (text ++ middle) = some ⟨kind, text, middle⟩ := by
  -- what follows the first character of a longer sign is still not the second one
  have apart {second : Char} (before : ∀ rest, middle ++ more = second :: rest → False)
      (rest : List Char) : middle = second :: rest → False := by
    rintro rfl
    exact before (rest ++ more) rfl
  generalize whole : text ++ (middle ++ more) = cs at found
  unfold symbol? at found
  split at found <;> cases found <;> try rfl
  · rename_i notArrow
    rw [List.singleton_append, symbol?]
    exact apart notArrow
  · rename_i notEqual notArrow
    rw [List.singleton_append, symbol?]
    · exact apart notEqual
    · exact apart notArrow
  · rename_i notEqual notGreater
    rw [List.singleton_append, symbol?]
    · exact apart notEqual
    · exact apart notGreater
  · rename_i notEqual
    rw [List.singleton_append, symbol?]
    exact apart notEqual

/-- A lexeme does not change when the text is cut off anywhere behind it. -/
theorem read?_truncate {kind : Kind} {text middle more : List Char}
    (found : read? (text ++ (middle ++ more)) = some ⟨kind, text, middle ++ more⟩) :
    read? (text ++ middle) = some ⟨kind, text, middle⟩ := by
  obtain ⟨c, tail, rfl⟩ := List.exists_cons_of_ne_nil (read?_splits found).1
  by_cases digit : c.isDigit = true
  · rw [List.cons_append, read?_numeral digit, ← List.cons_append] at found
    simp only [Option.some.injEq, Lexeme.mk.injEq] at found
    obtain ⟨rfl, taken, left⟩ := found
    have again := isLocal_numeral.truncate (Prod.ext taken left)
    rw [List.cons_append, read?_numeral digit, ← List.cons_append, again, taken]
  · by_cases start : isWordStart c = true
    · rw [List.cons_append, read?_word start] at found
      simp only [Option.some.injEq, Lexeme.mk.injEq, List.cons.injEq, true_and] at found
      obtain ⟨rfl, taken, left⟩ := found
      obtain ⟨takenAgain, leftAgain⟩ :=
        Prod.mk.inj ((isLocal_span isWordPart).truncate (Prod.ext taken left))
      rw [List.cons_append, read?_word start, takenAgain, leftAgain, taken]
    · have notPart : isWordPart c = false := by
        simp [isWordPart_eq, digit, start]
      by_cases isQuote : c = '"' ∨ c = '\''
      · rw [List.cons_append, read?_quote isQuote, string?, if_pos isQuote] at found
        obtain ⟨⟨body, rest⟩, inside, same⟩ := Option.map_eq_some_iff.1 found
        cases same
        have closed := closeQuote_extend tail middle (closeQuote_self inside)
        rw [List.cons_append, read?_quote isQuote, string?, if_pos isQuote, closed]
        rfl
      · rw [List.cons_append, read?_mark notPart isQuote] at found ⊢
        exact @symbol?_truncate kind (c :: tail) middle more found

theorem isBlank_of_isSeparator {c : Char} (separates : isSeparator c = true) :
    Text.isBlank c = true := by
  simp only [isSeparator, Bool.or_eq_true, beq_iff_eq] at separates
  rcases separates with ((rfl | rfl) | rfl) | rfl <;> rfl

theorem not_isSeparator_of_read? {c : Char} {cs : List Char} {lexeme : Lexeme}
    (found : read? (c :: cs) = some lexeme) : isSeparator c = false := by
  rw [← Bool.not_eq_true]
  intro separates
  have blank := isBlank_of_read? found
  rw [isBlank_of_isSeparator separates] at blank
  cases blank

end Lexeme

/-- In front of `rest`, the text that starts at `start` is made of separators and these tokens. -/
inductive Lexes (rest : List Char) : Nat → List Char → List Token → Prop where
  | nil {start : Nat} : Lexes rest start [] []
  | separator {start : Nat} {c : Char} {text : List Char} {tokens : List Token}
      (separates : isSeparator c = true)
      (behind : Lexes rest (start + c.utf8Size) text tokens) :
      Lexes rest start (c :: text) tokens
  | lexeme {start : Nat} {kind : Kind} {part text : List Char} {tokens : List Token}
      (found : Lexeme.read? (part ++ (text ++ rest)) = some ⟨kind, part, text ++ rest⟩)
      (behind : Lexes rest (start + Text.byteSize part) text tokens) :
      Lexes rest start (part ++ text) (⟨kind, start, start + Text.byteSize part⟩ :: tokens)

/-- No token starts here, and no separator stands here. -/
def Halts (rest : List Char) : Prop :=
  Lexeme.read? rest = none ∧ ∀ c ∈ rest.head?, isSeparator c = false

/-- The lexer goes on from `start` until it halts. -/
theorem exists_lexes (start : Nat) (cs : List Char) :
    ∃ text rest tokens, cs = text ++ rest ∧ Lexes rest start text tokens ∧ Halts rest := by
  fun_induction tokensFrom start cs with
  | case1 start => exact ⟨[], [], [], rfl, .nil, rfl, by simp⟩
  | case2 start c cs separates ih =>
    obtain ⟨text, rest, tokens, rfl, run, halts⟩ := ih
    exact ⟨c :: text, rest, tokens, rfl, .separator separates run, halts⟩
  | case3 start c cs other unread =>
    exact ⟨[], c :: cs, [], rfl, .nil, unread, by simpa using other⟩
  | case4 start c cs other lexeme found stop =>
    rename_i ih
    obtain ⟨text, rest, tokens, behind, run, halts⟩ := ih
    obtain ⟨kind, part, left⟩ := lexeme
    obtain rfl : left = text ++ rest := behind
    have whole := (Lexeme.read?_splits found).2
    rw [← whole] at found ⊢
    refine ⟨part ++ text, rest, _, (List.append_assoc _ _ _).symm, .lexeme found run, halts⟩

theorem tokensFrom_read (start : Nat) {cs : List Char} {lexeme : Lexeme}
    (found : Lexeme.read? cs = some lexeme) :
    tokensFrom start cs =
      (tokensFrom (start + Text.byteSize lexeme.text) lexeme.rest).map
        (⟨lexeme.kind, start, start + Text.byteSize lexeme.text⟩ :: ·) := by
  cases cs with
  | nil => cases found
  | cons c cs =>
    rw [tokensFrom, if_neg (by simp [Lexeme.not_isSeparator_of_read? found])]
    split
    · simp_all
    · simp_all

namespace Lexes

variable {rest text : List Char} {start : Nat} {tokens : List Token}

/-- The lexer takes these tokens and goes on behind the text. -/
theorem tokensFrom_eq (run : Lexes rest start text tokens) :
    tokensFrom start (text ++ rest) =
      (tokensFrom (start + Text.byteSize text) rest).map (tokens ++ ·) := by
  induction run with
  | nil => exact (congrFun Except.map_id _).symm
  | separator separates behind ih =>
    rw [List.cons_append, tokensFrom, if_pos separates, ih, Text.byteSize_cons, Nat.add_assoc]
  | lexeme found behind ih =>
    rw [List.append_assoc, tokensFrom_read _ found, ih, Text.byteSize_append, Nat.add_assoc]
    cases tokensFrom _ rest <;> rfl

/-- So does the one that steps over what it does not know. -/
theorem lenientTokensFrom_eq (run : Lexes rest start text tokens) :
    lenientTokensFrom start (text ++ rest) =
      tokens ++ lenientTokensFrom (start + Text.byteSize text) rest := by
  induction run with
  | nil => rfl
  | separator separates behind ih =>
    rw [List.cons_append, lenientTokensFrom, if_pos (Lexeme.isBlank_of_isSeparator separates), ih,
      Text.byteSize_cons, Nat.add_assoc]
  | @lexeme start kind part text tokens found behind ih =>
    obtain ⟨c, tail, rfl⟩ := List.exists_cons_of_ne_nil (Lexeme.read?_splits found).1
    rw [List.cons_append] at found
    rw [List.append_assoc, List.cons_append, lenientTokensFrom_read _ found, ih,
      Text.byteSize_append, Nat.add_assoc]
    rfl

/-- The tokens are the same without the text behind them. -/
theorem truncate (run : Lexes rest start text tokens) : Lexes [] start text tokens := by
  induction run with
  | nil => exact .nil
  | separator separates behind ih => exact .separator separates ih
  | lexeme found behind ih =>
    exact .lexeme (by simpa using Lexeme.read?_truncate found) ih

theorem start_le (run : Lexes rest start text tokens) : ∀ token ∈ tokens, start ≤ token.start := by
  induction run with
  | nil => simp
  | separator separates behind ih =>
    exact fun token member => Nat.le_of_add_right_le (ih token member)
  | lexeme found behind ih =>
    refine List.forall_mem_cons.2 ⟨Nat.le_refl _, ?_⟩
    exact fun token member => Nat.le_of_add_right_le (ih token member)

/-- No token starts before the one in front of it stops. -/
theorem pairwise (run : Lexes rest start text tokens) :
    tokens.Pairwise fun token later => token.stop ≤ later.start := by
  induction run with
  | nil => exact .nil
  | separator separates behind ih => exact ih
  | lexeme found behind ih => exact .cons behind.start_le ih

/-- A token stands for a part of the text, which the lexer takes for its kind. -/
theorem exists_part (run : Lexes rest start text tokens) : ∀ token ∈ tokens,
    ∃ before part after, text = before ++ (part ++ after) ∧
      token.start = start + Text.byteSize before ∧
      token.stop = token.start + Text.byteSize part ∧
      Lexeme.read? (part ++ (after ++ rest)) = some ⟨token.kind, part, after ++ rest⟩ := by
  induction run with
  | nil => simp
  | @separator start c text tokens separates behind ih =>
    intro token member
    obtain ⟨before, part, after, rfl, starts, stops, found⟩ := ih token member
    refine ⟨c :: before, part, after, rfl, ?_, stops, found⟩
    rw [starts, Text.byteSize_cons, Nat.add_assoc]
  | @lexeme start kind part text tokens found behind ih =>
    refine List.forall_mem_cons.2 ⟨⟨[], part, text, rfl, rfl, rfl, found⟩, ?_⟩
    intro token member
    obtain ⟨before, inner, after, rfl, starts, stops, again⟩ := ih token member
    refine ⟨part ++ before, inner, after, (List.append_assoc _ _ _).symm, ?_, stops, again⟩
    rw [starts, Text.byteSize_append, Nat.add_assoc]

/-- A character is a separator, or some token takes it. -/
theorem separator_or_taken (run : Lexes rest start text tokens) {before after : List Char}
    {c : Char} (whole : text = before ++ c :: after) :
    isSeparator c = true ∨ ∃ token ∈ tokens, token.start ≤ start + Text.byteSize before ∧
      start + Text.byteSize before < token.stop := by
  induction run generalizing before with
  | nil => cases before <;> cases whole
  | separator separates behind ih =>
    cases before with
    | nil =>
      obtain ⟨rfl, -⟩ := List.cons.inj whole
      exact .inl separates
    | cons d before =>
      obtain ⟨rfl, later⟩ := List.cons.inj whole
      simpa only [Text.byteSize_cons, Nat.add_assoc] using ih later
  | @lexeme start kind part text tokens found behind ih =>
    by_cases within : Text.byteSize before < Text.byteSize part
    · refine .inr ⟨_, List.mem_cons_self, ?_⟩
      exact ⟨Nat.le_add_right _ _, Nat.add_lt_add_left within _⟩
    · -- The character stands behind the lexeme, so the rest of the run has it.
      obtain ⟨middle, rfl, later⟩ : ∃ middle, before = part ++ middle ∧
          text = middle ++ c :: after := by
        rcases List.append_eq_append_iff.1 whole with split | ⟨middle, rfl, later⟩
        · exact split
        · cases middle with
          | nil => exact ⟨[], by simp, later.symm⟩
          | cons d middle =>
            have positive := d.utf8Size_pos
            simp only [Text.byteSize_append, Text.byteSize_cons] at within
            omega
      rcases ih later with separates | ⟨token, member, inside⟩
      · exact .inl separates
      · refine .inr ⟨token, List.mem_cons_of_mem _ member, ?_⟩
        simpa only [Text.byteSize_append, Nat.add_assoc] using inside

end Lexes

theorem tokensFrom_of_halts (start : Nat) {c : Char} {rest : List Char}
    (halts : Halts (c :: rest)) :
    tokensFrom start (c :: rest) = .error (.malformed start (strayCause c)) := by
  rw [tokensFrom, if_neg (by simp [halts.2 c rfl])]
  split
  · rfl
  · simp_all [halts.1]

/-- A text is accepted by a run through the whole of it. -/
theorem tokensFrom_eq_ok {start : Nat} {cs : List Char} {tokens : List Token} :
    tokensFrom start cs = .ok tokens ↔ Lexes [] start cs tokens := by
  constructor
  · intro lexed
    obtain ⟨text, rest, found, rfl, run, halts⟩ := exists_lexes start cs
    rw [run.tokensFrom_eq] at lexed
    cases rest with
    | nil =>
      rw [tokensFrom] at lexed
      cases lexed
      simpa using run
    | cons c rest =>
      rw [tokensFrom_of_halts _ halts] at lexed
      cases lexed
  · intro run
    have whole := run.tokensFrom_eq
    rw [List.append_nil, tokensFrom] at whole
    simpa [Except.map] using whole

/-- A text is refused where a run through it halts too early. -/
theorem lexes_of_tokensFrom_error {start : Nat} {cs : List Char} {fault : Fault}
    (failed : tokensFrom start cs = .error fault) :
    ∃ text c rest tokens, cs = text ++ c :: rest ∧ Lexes (c :: rest) start text tokens ∧
      Halts (c :: rest) ∧ fault = .malformed (start + Text.byteSize text) (strayCause c) := by
  obtain ⟨text, rest, tokens, rfl, run, halts⟩ := exists_lexes start cs
  rw [run.tokensFrom_eq] at failed
  cases rest with
  | nil =>
    rw [tokensFrom] at failed
    cases failed
  | cons c rest =>
    rw [tokensFrom_of_halts _ halts] at failed
    cases failed
    exact ⟨text, c, rest, tokens, rfl, run, halts, rfl⟩

/-- Where the lexer of formulas refuses nothing, the one that steps over what it does not know has
nothing to step over. -/
theorem lenientTokensFrom_of_tokensFrom {start : Nat} {cs : List Char} {tokens : List Token}
    (success : tokensFrom start cs = .ok tokens) : lenientTokensFrom start cs = tokens := by
  have whole := (tokensFrom_eq_ok.1 success).lenientTokensFrom_eq
  rw [List.append_nil, lenientTokensFrom, List.append_nil] at whole
  exact whole

namespace Text

theorem byteSize_pos {cs : List Char} (nonempty : cs ≠ []) : 0 < byteSize cs := by
  obtain ⟨c, rest, rfl⟩ := List.exists_cons_of_ne_nil nonempty
  exact Nat.add_pos_left c.utf8Size_pos _

theorem utf8ByteSize_ofList (cs : List Char) :
    (String.ofList cs).utf8ByteSize = byteSize cs := by
  induction cs with
  | nil => rfl
  | cons c cs ih => simp_all

theorem utf8ByteSize_eq (source : String) : source.utf8ByteSize = byteSize source.toList := by
  rw [← utf8ByteSize_ofList, String.ofList_toList]

end Text

/-- A formula is refused in front of a character that starts no token, behind a run of the lexer. -/
theorem lexes_of_tokenize_error {source : String} {fault : Fault}
    (failed : tokenize source = .error fault) :
    ∃ before after tokens cause, source = before ++ after ∧ after ≠ "" ∧
      Lexes after.toList 0 before.toList tokens ∧ Lexeme.read? after.toList = none ∧
      fault = .malformed before.utf8ByteSize cause := by
  obtain ⟨text, c, rest, tokens, whole, run, halts, rfl⟩ := lexes_of_tokensFrom_error failed
  refine ⟨String.ofList text, String.ofList (c :: rest), tokens, strayCause c, ?_, ?_, ?_, ?_, ?_⟩
  · rw [← String.toList_inj, whole]
    simp
  · rw [ne_eq, ← String.toList_inj]
    simp
  · rw [String.toList_ofList, String.toList_ofList]
    exact run
  · rw [String.toList_ofList]
    exact halts.1
  · rw [Text.utf8ByteSize_ofList, Nat.zero_add]

/-- The text that a token takes. -/
def tokenText (source : String) (token : Token) : String :=
  Text.slice source.toList token.start token.stop

/-- The tokens hold all of a text but the separators, and each of them by itself. -/
structure Lossless (source : String) (tokens : List Token) : Prop where
  /-- A token takes a part of the text that is not empty, and that gives the token alone too. -/
  part : ∀ token ∈ tokens, ∃ before after, source = before ++ tokenText source token ++ after ∧
    token.start = before.utf8ByteSize ∧
    token.stop = (before ++ tokenText source token).utf8ByteSize ∧ token.start < token.stop ∧
    tokenize (tokenText source token) = .ok [⟨token.kind, 0, token.stop - token.start⟩]
  ordered : tokens.Pairwise fun token later => token.stop ≤ later.start
  /-- Only separators stand before, between and behind the tokens. -/
  gaps : ∀ before c after, source.toList = before ++ c :: after →
    (∀ token ∈ tokens, Text.byteSize before < token.start ∨ token.stop ≤ Text.byteSize before) →
    c ∈ [' ', '\t', '\r', '\n']
  /-- With one space between any two of them, the tokens have the same kinds. -/
  spaced : ∃ again, tokenize (" ".intercalate (tokens.map (tokenText source))) = .ok again ∧
    again.map Token.kind = tokens.map Token.kind

/-- A text that is one lexeme is one token. -/
theorem tokenize_of_read? {text : List Char} {kind : Kind}
    (found : Lexeme.read? text = some ⟨kind, text, []⟩) :
    tokenize (String.ofList text) = .ok [⟨kind, 0, Text.byteSize text⟩] := by
  rw [tokenize, String.toList_ofList, tokensFrom_read 0 found, tokensFrom]
  simp [Except.map]

theorem Spells.read {cs text rest : List Char} {kind : Kind} {kinds : List Kind}
    (found : Lexeme.read? cs = some ⟨kind, text, rest⟩) (behind : Spells rest kinds) :
    Spells cs (kind :: kinds) := by
  cases cs with
  | nil => cases found
  | cons c cs => exact .lexeme (Lexeme.not_isSeparator_of_read? found) found behind

/-- Lexemes stay what they are with a space between any two of them. -/
theorem spells_spaced {texts : List String} {kinds : List Kind}
    (each : List.Forall₂ (fun text kind => Lexeme.read? text.toList = some ⟨kind, text.toList, []⟩)
      texts kinds) : Spells (" ".intercalate texts).toList kinds := by
  induction each with
  | nil => exact .nil
  | @cons text kind texts kinds found others ih =>
    cases others with
    | nil => exact .read (by simpa using found) .nil
    | cons next more =>
      rw [String.intercalate_cons_cons, String.toList_append, String.toList_append,
        List.append_assoc]
      exact .read (Lexeme.read?_boundary _ _ isBoundary_space found) (.separator rfl ih)

/-- Every token of a formula stands for itself: the tokens are in their order, nothing but
separators is left out, and no token needs its neighbours. -/
theorem tokenize_lossless {source : String} {tokens : List Token}
    (lexed : tokenize source = .ok tokens) : Lossless source tokens := by
  have run : Lexes [] 0 source.toList tokens := tokensFrom_eq_ok.1 lexed
  -- the text of a token, alone
  have alone : ∀ token ∈ tokens, ∃ before text after, source.toList = before ++ text ++ after ∧
      token.start = Text.byteSize before ∧ token.stop = Text.byteSize (before ++ text) ∧
      tokenText source token = String.ofList text ∧
      Lexeme.read? text = some ⟨token.kind, text, []⟩ := by
    intro token member
    obtain ⟨before, text, after, whole, starts, stops, found⟩ := run.exists_part token member
    rw [Nat.zero_add] at starts
    rw [starts] at stops
    rw [← List.append_assoc] at whole
    have short := @Lexeme.read?_truncate token.kind text [] (after ++ []) found
    refine ⟨before, text, after, whole, starts, ?_, ?_, by simpa using short⟩
    · rw [stops, Text.byteSize_append]
    · rw [tokenText, whole, starts, stops, Text.slice_append]
  refine ⟨?_, run.pairwise, ?_, ?_⟩
  · intro token member
    obtain ⟨before, text, after, whole, starts, stops, taken, found⟩ := alone token member
    refine ⟨String.ofList before, String.ofList after, ?_, ?_, ?_, ?_, ?_⟩
    · rw [taken, ← String.toList_inj]
      simpa using whole
    · rw [Text.utf8ByteSize_ofList, starts]
    · rw [taken, String.utf8ByteSize_append, Text.utf8ByteSize_ofList, Text.utf8ByteSize_ofList,
        stops, Text.byteSize_append]
    · have positive : 0 < Text.byteSize text := Text.byteSize_pos (Lexeme.read?_splits found).1
      rw [starts, stops, Text.byteSize_append]
      omega
    · have size : token.stop - token.start = Text.byteSize text := by
        rw [starts, stops, Text.byteSize_append, Nat.add_sub_cancel_left]
      rw [taken, size, tokenize_of_read? found]
  · intro before c after whole outside
    have separates : isSeparator c = true := by
      rcases run.separator_or_taken whole with separates | ⟨token, member, inside⟩
      · exact separates
      · have := outside token member
        omega
    simpa [isSeparator, or_assoc] using separates
  · have each : List.Forall₂ (fun text kind =>
        Lexeme.read? text.toList = some ⟨kind, text.toList, []⟩)
        (tokens.map (tokenText source)) (tokens.map Token.kind) := by
      rw [List.forall₂_map_left_iff, List.forall₂_map_right_iff, List.forall₂_same]
      intro token member
      obtain ⟨before, text, after, -, -, -, taken, found⟩ := alone token member
      rw [taken, String.toList_ofList]
      exact found
    exact spells_spaced each 0

/-- Numbers that run into names and signs that run into signs, with a character of three bytes. -/
theorem tokenize_lossless_dense :
    tokenize "1e+a\t<>-> '\\'€'>==2.5E3" =
        .ok [⟨.number "1", 0, 1⟩, ⟨.ident "e", 1, 2⟩, ⟨.plus, 2, 3⟩, ⟨.ident "a", 3, 4⟩,
          ⟨.notEqual, 5, 7⟩, ⟨.arrow, 7, 9⟩, ⟨.string "'\\'€'", 10, 17⟩, ⟨.greaterEqual, 17, 19⟩,
          ⟨.equal, 19, 20⟩, ⟨.number "2.5E3", 20, 25⟩] ∧
      Lossless "1e+a\t<>-> '\\'€'>==2.5E3"
        [⟨.number "1", 0, 1⟩, ⟨.ident "e", 1, 2⟩, ⟨.plus, 2, 3⟩, ⟨.ident "a", 3, 4⟩,
          ⟨.notEqual, 5, 7⟩, ⟨.arrow, 7, 9⟩, ⟨.string "'\\'€'", 10, 17⟩, ⟨.greaterEqual, 17, 19⟩,
          ⟨.equal, 19, 20⟩, ⟨.number "2.5E3", 20, 25⟩] := by
  have lexed : tokenize "1e+a\t<>-> '\\'€'>==2.5E3" =
      .ok [⟨.number "1", 0, 1⟩, ⟨.ident "e", 1, 2⟩, ⟨.plus, 2, 3⟩, ⟨.ident "a", 3, 4⟩,
        ⟨.notEqual, 5, 7⟩, ⟨.arrow, 7, 9⟩, ⟨.string "'\\'€'", 10, 17⟩, ⟨.greaterEqual, 17, 19⟩,
        ⟨.equal, 19, 20⟩, ⟨.number "2.5E3", 20, 25⟩] := by cbv
  exact ⟨lexed, tokenize_lossless lexed⟩

theorem start_le_of_lenient {start : Nat} {cs : List Char} :
    ∀ token ∈ lenientTokensFrom start cs, start ≤ token.start := by
  fun_induction lenientTokensFrom start cs with
  | case1 => simp
  | case2 start c cs blank ih => exact fun token member => Nat.le_of_add_right_le (ih token member)
  | case3 start c cs other unread ih =>
    exact fun token member => Nat.le_of_add_right_le (ih token member)
  | case4 start c cs other lexeme found stop =>
    rename_i ih
    refine List.forall_mem_cons.2 ⟨Nat.le_refl _, ?_⟩
    exact fun token member => Nat.le_of_add_right_le (ih token member)

/-- The two lexers agree as far as the strict one comes. It accepts what stands in front of the
place where it refuses a text, and the lenient one finds the same tokens there. -/
theorem tokenizeLenient_agrees (source : String) :
    (∀ tokens, tokenize source = .ok tokens → tokenizeLenient source = tokens) ∧
    ∀ fault, tokenize source = .error fault →
      ∃ before after cause, source = before ++ after ∧
        fault = .malformed before.utf8ByteSize cause ∧
        tokenize before =
          .ok ((tokenizeLenient source).filter fun token => token.start < before.utf8ByteSize) := by
  refine ⟨fun tokens lexed => lenientTokensFrom_of_tokensFrom lexed, fun fault failed => ?_⟩
  obtain ⟨before, after, tokens, cause, rfl, -, run, -, rfl⟩ := lexes_of_tokenize_error failed
  refine ⟨before, after, cause, rfl, rfl, ?_⟩
  rw [Text.utf8ByteSize_eq]
  have kept : tokens.filter (fun token => token.start < Text.byteSize before.toList) = tokens := by
    rw [List.filter_eq_self]
    intro token member
    obtain ⟨front, part, back, whole, starts, -, found⟩ := run.exists_part token member
    have positive : 0 < Text.byteSize part := Text.byteSize_pos (Lexeme.read?_splits found).1
    simp only [whole, Text.byteSize_append, decide_eq_true_eq]
    omega
  have dropped : (lenientTokensFrom (0 + Text.byteSize before.toList) after.toList).filter
      (fun token => token.start < Text.byteSize before.toList) = [] := by
    rw [List.filter_eq_nil_iff]
    intro token member
    have := start_le_of_lenient token member
    simp only [decide_eq_true_eq]
    omega
  rw [tokenizeLenient, String.toList_append, run.lenientTokensFrom_eq, List.filter_append, kept,
    dropped, List.append_nil]
  exact tokensFrom_eq_ok.2 run.truncate

end Formulary
