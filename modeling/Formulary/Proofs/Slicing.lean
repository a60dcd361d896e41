import Mathlib
import Formulary.Proofs.Lexing
import Formulary.Proofs.Nesting
import Formulary.Proofs.Pieces

set_option autoImplicit false

namespace Formulary

namespace Grammar

variable {inner : Inner} {context : Context} {tokens : List Token} {fault : Fault}

/-- An expression that starts with an operand is refused with it. -/
theorem disjunction_eq_error
    (starts : NotNext (fun kind => kind = .minus ∨ kind = .plus ∨ kind = .keyword .notWord) tokens)
    (failed : (primary inner context tokens).result = .error fault) :
    (disjunction inner context tokens).result = .error fault := by
  have onward {α β : Type} {first : Traced α} {next : α → Traced β}
      (failed : first.result = .error fault) : (first >>= next).result = .error fault :=
    Traced.result_bind_eq_error.2 (.inl failed)
  have unsigned : (signed inner context tokens).result = .error fault := by
    rw [signed_unsigned fun token next sign => starts token next (by tauto)]
    exact onward failed
  have positive : (negation inner context tokens).result = .error fault := by
    rw [negation_positive fun token next isNot => starts token next (by tauto)]
    exact onward (onward (onward unsigned))
  exact onward (onward positive)

theorem primary_call_eq_error {word opening : Token} {name : String} {inside rest : List Token}
    (named : word.kind = .ident name) (opens : opening.kind = .openParen)
    (closed : upToClose 0 tokens = some (inside, rest))
    (failed : (Call.read (readWhole inner context.source) context.source context.scope name
      inside).result = .error fault) :
    (primary inner context (word :: opening :: tokens)).result = .error fault := by
  simp only [primary, named, Grammar.named, opens, ↓reduceIte]
  split
  · rename_i other unclosed
    rw [enclosed_eq_ok.2 closed] at unclosed
    cases unclosed
  · rename_i found after closes
    rw [enclosed_eq_ok.2 closed] at closes
    cases closes
    exact Traced.result_bind_eq_error.2 (.inl failed)

end Grammar

namespace Formula

open Grammar

/-- A formula that is one call is compiled as the call is, one level below it. -/
theorem compile_eq_callAt {formula name : String} {word opening closing : Token}
    {inside : List Token}
    (lexed : tokenize formula = .ok (word :: opening :: (inside ++ [closing])))
    (named : word.kind = .ident name) (opens : opening.kind = .openParen)
    (closes : closing.kind = .closeParen) (closed : Closed true inside) :
    (compile formula).result = callAt 63 formula.toList .entity name inside := by
  have ends := @upToClose_of_closed inside [] closing closed closes
  cases result : (Call.read (readWhole (readerAt 63) formula.toList) formula.toList .entity name
      inside).result with
  | ok expr =>
    have operand (stop : Nat) : Takes (primary (readerAt 63)) ⟨formula.toList, .entity, stop⟩
        (word :: opening :: (inside ++ [closing])) [] (· = expr) := by
      intro found after
      rw [primary_ident named, named_call opens, ends]
      simp only [Option.some.injEq, Prod.mk.injEq]
      constructor
      · rintro ⟨_, ⟨rfl, rfl⟩, taken⟩
        rw [result] at taken
        cases taken
        exact ⟨rfl, rfl⟩
      · rintro ⟨rfl, rfl⟩
        exact ⟨inside, ⟨rfl, rfl⟩, result⟩
    have sum (stop : Nat) := takes_alone (operand stop) (notNext_cons.2 (by simp [named]))
    have whole (stop : Nat) := (sum stop).expression (notNext_cons.2 (by simp [named])) expr []
    have read : (readSlice formula.toList .entity
        (word :: opening :: (inside ++ [closing]))).result = .ok expr :=
      readWhole_eq_ok.2 ⟨by simp, (whole _).2 ⟨rfl, rfl⟩⟩
    have parsed := parse_eq_ok.2 ⟨_, lexed, .inr ⟨by simp, read⟩⟩
    rw [callAt, result, compile_eq_ok.2 ⟨expr, parsed, rfl⟩]
    rfl
  | error fault =>
    have starts : NotNext (fun kind => kind = .minus ∨ kind = .plus ∨ kind = .keyword .notWord)
        (word :: opening :: (inside ++ [closing])) := notNext_cons.2 (by simp [named])
    have refused (stop : Nat) : (disjunction (readerAt 63) ⟨formula.toList, .entity, stop⟩
        (word :: opening :: (inside ++ [closing]))).result = .error fault :=
      disjunction_eq_error starts (primary_call_eq_error named opens ends result)
    have failed : (readSlice formula.toList .entity
        (word :: opening :: (inside ++ [closing]))).result = .error fault :=
      Traced.result_bind_eq_error.2 (.inl (refused _))
    rw [callAt, result, compile_eq_error_of_read lexed (by simp) failed]
    rfl

end Formula

/-- The slice of the table. -/
def sliceSignature : Signature :=
  ⟨"SLICE", .exactly 3,
    [.literal "np.take(", .hole "0", .literal ", ", .hole "index", .literal ", axis=",
      .hole "axis", .literal ")"],
    .sliceKeywords⟩

namespace Call

variable {read : SliceReader} {source : List Char} {scope : Scope} {signature : Signature}

/-- A keyword that is still free is taken up with its value. -/
theorem Gives.readKeywords_eq {keywords : Keywords} {key : ArgumentKey} {argument : List Token}
    {rest : List (List Token)} {expr : Expr} (gives : Gives read scope signature argument key expr)
    (free : keywords.get? key = none) :
    (readKeywords read source scope signature keywords (argument :: rest)).result =
      (readKeywords read source scope signature (keywords.set expr key) rest).result := by
  obtain ⟨value, named, taken⟩ := gives
  simp only [readKeywords, named, free, Option.isSome_none, Bool.false_eq_true, ↓reduceIte]
  rw [Traced.result_bind, taken]
  rfl

/-- Two keywords that differ complete a slice, in either order. -/
theorem readSlice_keywords {key other : ArgumentKey} {target first second : List Token}
    {array left right along place : Expr} (plain : keyword? target = none)
    (taken : (read scope target).result = .ok array)
    (one : Gives read scope signature first key left)
    (two : Gives read scope signature second other right)
    (both : ((⟨none, none⟩ : Keywords).set left key).set right other =
      ⟨some along, some place⟩) :
    (readSlice read source scope signature target [first, second]).result =
      (checkAxis signature along).map fun _ => .slice signature array along place := by
  have positional : (readPositional read scope signature target).result = .ok array := by
    rw [readPositional, plain]
    exact taken
  have unset : (⟨none, none⟩ : Keywords).get? key = none := by cases key <;> rfl
  have free : ((⟨none, none⟩ : Keywords).set left key).get? other = none := by
    cases key <;> cases other <;> simp_all [Keywords.set, Keywords.get?]
  have keywords : (readKeywords read source scope signature ⟨none, none⟩ [first, second]).result =
      .ok ⟨some along, some place⟩ := by
    rw [one.readKeywords_eq unset, two.readKeywords_eq free, both]
    rfl
  rw [readSlice, Traced.result_bind, positional]
  simp only [bind, Except.bind]
  cases checked : checkAxis signature along with
  | error fault =>
    exact Traced.result_bind_eq_error.2 (.inr ⟨_, keywords,
      Traced.result_bind_eq_error.2 (.inl checked)⟩)
  | ok =>
    exact Traced.result_bind_eq_ok.2 ⟨_, keywords, Traced.result_bind_eq_ok.2 ⟨_, checked, rfl⟩⟩

/-- A slice whose arguments have been told apart. -/
theorem callAt_slice {levels : Nat} {key other : ArgumentKey}
    {tokens target first second : List Token} {array left right along place : Expr}
    (split : splitArguments tokens = .ok [target, first, second]) (plain : keyword? target = none)
    (taken : (readWhole (Grammar.readerAt levels) source .entity target).result = .ok array)
    (one : Gives (readWhole (Grammar.readerAt levels) source) .entity sliceSignature first key left)
    (two : Gives (readWhole (Grammar.readerAt levels) source) .entity sliceSignature second other
      right)
    (both : ((⟨none, none⟩ : Keywords).set left key).set right other =
      ⟨some along, some place⟩) :
    callAt levels source .entity "SLICE" tokens =
      (checkAxis sliceSignature along).map fun _ =>
        (Expr.slice sliceSignature array along place).fragment := by
  have known : Signature.lookup? "SLICE" = some sliceSignature := by decide_cbv
  have table : Aggregation.isRelational "SLICE".toUpper tokens .entity = false := by
    have upper : "SLICE".toUpper = "SLICE" := by decide_cbv
    rw [upper, Aggregation.isRelational, if_neg (by decide)]
    decide
  have accepts : sliceSignature.arity.accepts [target, first, second].length = true := rfl
  have shape : readShape (readWhole (Grammar.readerAt levels) source) source .entity sliceSignature
      [target, first, second] = readSlice _ source _ _ target [first, second] := rfl
  rw [callAt, read_split known table split, if_pos accepts, shape,
    readSlice_keywords plain taken one two both]
  cases checkAxis sliceSignature along <;> rfl

end Call

namespace Lexeme

theorem read?_minus {cs : List Char} (apart : cs.head? ≠ some '>') :
    read? ('-' :: cs) = some ⟨.minus, ['-'], cs⟩ := by
  rw [read?_mark rfl (by decide), symbol?]
  rintro rest rfl
  exact apart rfl

theorem read?_equal {cs : List Char} (apart : ∀ c ∈ cs.head?, c ≠ '=' ∧ c ≠ '>') :
    read? ('=' :: cs) = some ⟨.equal, ['='], cs⟩ := by
  rw [read?_mark rfl (by decide), symbol?]
  · rintro rest rfl
    exact (apart '>' rfl).2 rfl
  · rintro rest rfl
    exact (apart '=' rfl).1 rfl

theorem read?_greater {cs : List Char} (apart : cs.head? ≠ some '=') :
    read? ('>' :: cs) = some ⟨.greater, ['>'], cs⟩ := by
  rw [read?_mark rfl (by decide), symbol?]
  rintro rest rfl
  exact apart rfl

/-- The signs that start with a character that would go on an equals sign. -/
def comparisons : List Kind := [.fatArrow, .equalEqual, .equal, .greaterEqual, .greater]

theorem exists_comparison {c : Char} (sign : c = '=' ∨ c = '>') (cs : List Char) :
    ∃ kind ∈ comparisons, ∃ text rest, read? (c :: cs) = some ⟨kind, text, rest⟩ := by
  rcases sign with rfl | rfl
  · by_cases apart : ∀ c ∈ cs.head?, c ≠ '=' ∧ c ≠ '>'
    · exact ⟨.equal, by decide, _, _, read?_equal apart⟩
    · push Not at apart
      obtain ⟨second, first, same⟩ := apart
      obtain ⟨rest, rfl⟩ := List.head?_eq_some_iff.1 first
      by_cases equals : second = '='
      · subst equals
        exact ⟨.equalEqual, by decide, ['=', '='], rest, rfl⟩
      · obtain rfl := same equals
        exact ⟨.fatArrow, by decide, ['=', '>'], rest, rfl⟩
  · by_cases apart : cs.head? = some '='
    · obtain ⟨rest, rfl⟩ := List.head?_eq_some_iff.1 apart
      exact ⟨.greaterEqual, by decide, ['>', '='], rest, rfl⟩
    · exact ⟨.greater, by decide, _, _, read?_greater apart⟩

end Lexeme

/-- No expression starts with a comparison. -/
theorem Alone.not_mem_comparisons {levels : Nat} {token : Token} {tokens : List Token} {expr : Expr}
    (alone : Alone levels (token :: tokens) expr) : token.kind ∉ Lexeme.comparisons := by
  intro compares
  cases levels with
  | zero => exact Alone.not_zero alone
  | succ levels =>
    obtain ⟨kind, start, stop⟩ := token
    have refused (context : Context) : (Grammar.primary (Grammar.readerAt levels) context
          (⟨kind, start, stop⟩ :: tokens)).result =
        .error (.malformed start (.unexpectedToken kind)) := by
      simp only [Lexeme.comparisons, List.mem_cons, List.not_mem_nil, or_false] at compares
      rcases compares with rfl | rfl | rfl | rfl | rfl <;> rfl
    have starts : NotNext (fun kind => kind = .minus ∨ kind = .plus ∨ kind = .keyword .notWord)
        (⟨kind, start, stop⟩ :: tokens) := by
      have other : ∀ kind ∈ Lexeme.comparisons,
          ¬(kind = .minus ∨ kind = .plus ∨ kind = .keyword .notWord) := by decide
      exact notNext_cons.2 (other kind compares)
    obtain ⟨-, shorter, taken⟩ := readWhole_eq_ok.1 alone
    rw [Grammar.readerAt, Grammar.disjunction_eq_error starts (refused _)] at taken
    cases taken

theorem Text.decimalValue_eq (cs : List Char) :
    Text.decimalValue cs = Nat.ofDigits 10 (cs.map fun c => c.toNat - '0'.toNat).reverse := by
  induction cs using List.reverseRecOn with
  | nil => rfl
  | append_singleton cs c ih =>
    rw [decimalValue, List.foldl_append, List.map_append, List.reverse_append]
    simp only [List.foldl_cons, List.foldl_nil, List.map_cons, List.map_nil, List.reverse_singleton,
      List.singleton_append, Nat.ofDigits_cons, ← ih]
    rw [decimalValue, Nat.add_comm]

/-- A whole number as it is written: decimal digits with at most one minus sign in front. -/
structure IntegerLiteral where
  negative : Bool
  digits : String
  decimal : Text.IsDigits digits.toList

namespace IntegerLiteral

variable (literal : IntegerLiteral)

def text : String := (if literal.negative then "-" else "") ++ literal.digits

/-- The number that the digits stand for, the last of them for the units. -/
def magnitude : Nat :=
  Nat.ofDigits 10 (literal.digits.toList.map fun c => c.toNat - '0'.toNat).reverse

def value : Int := if literal.negative then -(literal.magnitude : Int) else literal.magnitude

/-- The expression that the literal is read as. -/
def expr : Expr :=
  if literal.negative then .negate (.number literal.digits) else .number literal.digits

def tokens : List Token :=
  if literal.negative then [bare .minus, bare (.number literal.digits)]
  else [bare (.number literal.digits)]

theorem exists_digits :
    ∃ c cs, literal.digits.toList = c :: cs ∧ (c :: cs).all Char.isDigit = true := by
  obtain ⟨nonempty, all⟩ := literal.decimal
  obtain ⟨c, cs, spelled⟩ := List.exists_cons_of_ne_nil nonempty
  exact ⟨c, cs, spelled, spelled ▸ all⟩

theorem render_expr : literal.expr.render = literal.text := by
  have numeral : Text.IsNumeral literal.digits.toList :=
    ⟨_, [], [], by simp, literal.decimal, .inl rfl, .inl rfl⟩
  unfold expr text
  split
  · rw [Expr.render, Expr.render, negationCode,
      if_pos (Text.isUnsignedNumber_of_isNumeral numeral)]
  · simp [Expr.render]

theorem needs_expr : literal.expr.needs = .none := by
  unfold expr
  split <;> rfl

theorem natural?_digits : Text.natural? literal.digits.toList = some literal.magnitude := by
  rw [magnitude, ← Text.decimalValue_eq]
  exact if_pos literal.decimal

/-- The literal is taken for its value if that fits a signed machine word, and for no number
otherwise. -/
theorem literalAxis?_text :
    literalAxis? literal.text =
      if -(2 ^ 63) ≤ literal.value ∧ literal.value < 2 ^ 63 then some literal.value else none := by
  have limit : Text.maxSignedWord = 2 ^ 63 - 1 := rfl
  unfold literalAxis? text value
  cases literal.negative with
  | true =>
    have spelled : ("-" ++ literal.digits).toList = '-' :: literal.digits.toList := by simp
    have fits : literal.magnitude ≤ 2 ^ 63 - 1 + 1 ↔
        -(2 ^ 63) ≤ -(literal.magnitude : Int) ∧ -(literal.magnitude : Int) < 2 ^ 63 := by omega
    simp only [↓reduceIte, spelled, Text.boundedInteger?, literal.natural?_digits, limit,
      Option.filter_some, decide_eq_true_eq, fits]
    split <;> rfl
  | false =>
    have unsigned (sign : Char) (rest : List Char) (other : sign.isDigit = false) :
        literal.digits.toList ≠ sign :: rest := by
      intro spelled
      have all := literal.decimal.2
      simp [spelled, other] at all
    have fits : literal.magnitude ≤ 2 ^ 63 - 1 ↔
        -(2 ^ 63) ≤ (literal.magnitude : Int) ∧ (literal.magnitude : Int) < 2 ^ 63 := by omega
    simp only [Bool.false_eq_true, ↓reduceIte, String.empty_append]
    rw [Text.boundedInteger?]
    · simp only [literal.natural?_digits, limit, Option.filter_some, decide_eq_true_eq, fits]
      split <;> rfl
    · exact fun rest => unsigned '-' rest rfl
    · exact fun rest => unsigned '+' rest rfl

theorem lexeme_digits : Lexeme.read? literal.digits.toList =
    some ⟨.number literal.digits, literal.digits.toList, []⟩ := by
  obtain ⟨c, cs, spelled, all⟩ := literal.exists_digits
  have whole : Lexeme.numeral (c :: cs) = (c :: cs, []) := by
    have first := List.takeWhile_eq_self_iff.2 (List.all_eq_true.1 all)
    have rest := List.dropWhile_eq_nil_iff.2 (List.all_eq_true.1 all)
    simp [Lexeme.numeral, Lexeme.cutTwice, first, rest, Lexeme.fraction, Lexeme.exponent]
  have digit : c.isDigit = true := List.all_eq_true.1 all c List.mem_cons_self
  rw [spelled, Lexeme.read?_numeral digit, whole, ← spelled, String.ofList_toList]

theorem text_ne_nil : literal.text.toList ≠ [] := by
  obtain ⟨c, cs, spelled, -⟩ := literal.exists_digits
  simp [text, spelled]

/-- The first character of the literal is a digit or its sign. -/
theorem head_text : ∀ c ∈ literal.text.toList.head?, c ≠ '=' ∧ c ≠ '>' := by
  intro c first
  obtain ⟨digit, rest, spelled, all⟩ := literal.exists_digits
  have isDigit : digit.isDigit = true := List.all_eq_true.1 all digit List.mem_cons_self
  unfold text at first
  cases sign : literal.negative with
  | true =>
    obtain rfl : '-' = c := by simpa [sign] using first
    decide
  | false =>
    obtain rfl : digit = c := by simpa [sign, spelled] using first
    constructor
    · rintro rfl
      cases isDigit
    · rintro rfl
      cases isDigit

/-- The literal in front of a boundary. -/
theorem spells_text {mark : Char} {more : List Char} {kinds : List Kind}
    (boundary : IsBoundary mark) (behind : Spells (mark :: more) kinds) :
    Spells (literal.text.toList ++ mark :: more) (literal.tokens.map Token.kind ++ kinds) := by
  have digits : Spells (literal.digits.toList ++ mark :: more) (.number literal.digits :: kinds) :=
    .read (Lexeme.read?_boundary _ _ boundary literal.lexeme_digits) behind
  unfold text tokens
  cases literal.negative with
  | true =>
    have apart : (literal.digits.toList ++ mark :: more).head? ≠ some '>' := by
      obtain ⟨c, cs, spelled, all⟩ := literal.exists_digits
      rw [spelled]
      rintro ⟨⟩
      simp at all
    simpa [bare] using Spells.read (Lexeme.read?_minus apart) digits
  | false => simpa [bare] using digits

theorem alone_expr (levels : Nat) : Alone (levels + 2) literal.tokens literal.expr := by
  unfold tokens expr Alone
  cases literal.negative with
  | true => cbv
  | false => cbv

end IntegerLiteral

/-- A text that is these tokens in front of any boundary, and this expression with one level of
nesting less than a formula has. It can stand behind an equals sign. -/
structure Standalone (text : String) (tokens : List Token) (expr : Expr) : Prop where
  nonempty : text.toList ≠ []
  apart : ∀ c ∈ text.toList.head?, c ≠ '=' ∧ c ≠ '>'
  spells : ∀ {mark : Char} {more : List Char} {kinds : List Kind}, IsBoundary mark →
    Spells (mark :: more) kinds →
      Spells (text.toList ++ mark :: more) (tokens.map Token.kind ++ kinds)
  alone : Alone 63 tokens expr

theorem IntegerLiteral.standalone (literal : IntegerLiteral) :
    Standalone literal.text literal.tokens literal.expr :=
  ⟨literal.text_ne_nil, literal.head_text, literal.spells_text, literal.alone_expr 61⟩

theorem standalone_of_tokenize {text : String} {tokens : List Token} {expr : Expr}
    (lexed : tokenize text = .ok tokens) (alone : Alone 63 tokens expr) :
    Standalone text tokens expr where
  nonempty := by
    intro empty
    rw [tokenize, empty, tokensFrom] at lexed
    cases lexed
    exact alone.ne_nil rfl
  apart := by
    intro c first
    by_contra sign
    obtain ⟨cs, spelled⟩ : ∃ cs, text.toList = c :: cs := List.head?_eq_some_iff.1 first
    have compared : c = '=' ∨ c = '>' := by tauto
    obtain ⟨kind, compares, part, rest, found⟩ := Lexeme.exists_comparison compared cs
    rw [tokenize, spelled, tokensFrom_read 0 found] at lexed
    obtain ⟨others, -, rfl⟩ := map_eq_ok.1 lexed
    exact alone.not_mem_comparisons compares
  spells boundary behind := spells_append lexed (by simpa using boundary) behind
  alone := alone

theorem Call.ArgumentKey.read?_name (key : ArgumentKey) (rest : List Char) :
    Lexeme.read? (key.name.toList ++ '=' :: rest) =
      some ⟨.ident key.name, key.name.toList, '=' :: rest⟩ := by
  cases key with
  | axis => cbv
  | index => cbv

/-- The text behind a keyword. -/
theorem Standalone.keyed {text : String} {tokens : List Token} {expr : Expr}
    (value : Standalone text tokens expr) (key : Call.ArgumentKey) {mark : Char} {more : List Char}
    {kinds : List Kind} (boundary : IsBoundary mark) (behind : Spells (mark :: more) kinds) :
    Spells (key.name.toList ++ '=' :: (text.toList ++ mark :: more))
      ((.ident key.name :: .equal :: tokens.map Token.kind) ++ kinds) := by
  have apart : ∀ c ∈ (text.toList ++ mark :: more).head?, c ≠ '=' ∧ c ≠ '>' := by
    rw [List.head?_append_of_ne_nil _ value.nonempty]
    exact value.apart
  exact .read (key.read?_name _) (.read (Lexeme.read?_equal apart) (value.spells boundary behind))

/-- Tokens of the same kinds at another place are the same expression. -/
theorem Alone.elsewhere {levels : Nat} {tokens found : List Token} {expr : Expr}
    (alone : Alone levels tokens expr) (same : found.map Token.kind = tokens.map Token.kind)
    (source : List Char) :
    (readWhole (Grammar.readerAt levels) source .entity found).result = .ok expr ∧
      Closed false found ∧ found ≠ [] := by
  have steady := Grammar.steadySlices_readWhole (Grammar.steady_same .strict levels .expression)
    source [] .entity (Alike.of_kinds same)
  have read := steady.eq_ok_iff.2 alone
  have sound := Grammar.soundReader_readerAt levels .expression
  exact ⟨read, closed_of_reads (Grammar.soundSlices_readWhole sound source read),
    (readWhole_eq_ok.1 read).1⟩

/-- An argument with a keyword in front of its value. -/
theorem Alone.gives {key : Call.ArgumentKey} {levels : Nat} {argument value : List Token}
    {expr : Expr} {signature : Signature} (alone : Alone levels value expr)
    (same : argument.map Token.kind = .ident key.name :: .equal :: value.map Token.kind)
    (source : List Char) :
    Call.Gives (readWhole (Grammar.readerAt levels) source) .entity signature argument key expr ∧
      Closed false argument ∧ argument ≠ [] := by
  simp only [List.map_eq_cons_iff] at same
  obtain ⟨word, _, rfl, named, sign, found, rfl, equals, same⟩ := same
  obtain ⟨read, closed, nonempty⟩ := alone.elsewhere same source
  have known : Call.ArgumentKey.ofName? key.name = some key := by
    cases key <;> decide_cbv
  have inner : word.kind.isInner false = true ∧ sign.kind.isInner false = true := by
    rw [named, equals]
    exact ⟨rfl, rfl⟩
  refine ⟨⟨found, ?_, ?_⟩, .token inner.1 (.token inner.2 closed), by simp⟩
  · rw [Call.keyword?_cons, named, equals]
    simp [Kind.name?, known]
  · rw [Call.readValue, if_neg nonempty, read]

namespace Formula

open Call

/-- A formula that is a call with three arguments. -/
theorem compile_arguments {formula name : String} {one two three : List Kind}
    (spelled : Spells formula.toList (.ident name :: .openParen ::
      (one ++ .comma :: (two ++ .comma :: (three ++ [.closeParen]))))) :
    ∃ first second third inside, first.map Token.kind = one ∧ second.map Token.kind = two ∧
      third.map Token.kind = three ∧
      ((∀ part ∈ [first, second, third], Closed false part ∧ part ≠ []) →
        splitArguments inside = .ok [first, second, third] ∧
        (compile formula).result = callAt 63 formula.toList .entity name inside) := by
  obtain ⟨found, lexed, same⟩ := spelled 0
  simp only [List.map_eq_cons_iff, List.map_eq_append_iff, List.map_eq_nil_iff] at same
  obtain ⟨word, _, rfl, named, opening, _, rfl, opens, first, _, rfl, sameFirst, comma, _, rfl,
    separates, second, _, rfl, sameSecond, mark, _, rfl, separatesToo, third, _, rfl, sameThird,
    closing, _, rfl, closes, rfl⟩ := same
  refine ⟨first, second, third, first ++ comma :: (second ++ mark :: third), sameFirst, sameSecond,
    sameThird, fun parts => ?_⟩
  obtain ⟨⟨before, someFirst⟩, ⟨middle, someSecond⟩, ⟨behind, someThird⟩⟩ := by simpa using parts
  have isInner {token : Token} (kind : token.kind = .comma) : token.kind.isInner true = true := by
    rw [kind]
    rfl
  have closed : Closed true (first ++ comma :: (second ++ mark :: third)) :=
    before.weaken.append (.token (isInner separates)
      (middle.weaken.append (.token (isInner separatesToo) behind.weaken)))
  refine ⟨splitArguments_triple before middle behind someFirst someSecond someThird separates
    separatesToo, compile_eq_callAt ?_ named opens closes closed⟩
  rw [tokenize, lexed]
  simp

/-- A slice with both keywords, in either order. -/
theorem compile_keyed {key other : ArgumentKey} {target one two : String}
    {inTarget inOne inTwo : List Token} {array left right along place : Expr}
    (first : Standalone target inTarget array) (plain : keyword? inTarget = none)
    (second : Standalone one inOne left) (third : Standalone two inTwo right)
    (both : ((⟨none, none⟩ : Keywords).set left key).set right other =
      ⟨some along, some place⟩) :
    (compile ("SLICE(" ++ target ++ ", " ++ key.name ++ "=" ++ one ++ ", " ++ other.name ++ "=" ++
        two ++ ")")).result =
      (checkAxis sliceSignature along).map fun _ =>
        (Expr.slice sliceSignature array along place).fragment := by
  generalize written : "SLICE(" ++ target ++ ", " ++ key.name ++ "=" ++ one ++ ", " ++
    other.name ++ "=" ++ two ++ ")" = formula
  have spelled : Spells formula.toList (.ident "SLICE" :: .openParen ::
      (inTarget.map Token.kind ++ .comma :: ((.ident key.name :: .equal :: inOne.map Token.kind) ++
        .comma :: ((.ident other.name :: .equal :: inTwo.map Token.kind) ++ [.closeParen])))) := by
    have last := third.keyed other isBoundary_closeParen (spells_close .nil)
    have middle := second.keyed key isBoundary_comma (spells_comma last)
    have inside := spells_open (first.spells isBoundary_comma (spells_comma middle))
    have whole := @spells_word "SLICE" '(' _ _ _ (by cbv) isBoundary_openParen inside
    rw [← written]
    simpa using whole
  obtain ⟨atTarget, atOne, atTwo, inside, sameTarget, sameOne, sameTwo, called⟩ :=
    compile_arguments spelled
  obtain ⟨targetRead, targetClosed, someTarget⟩ := first.alone.elsewhere sameTarget formula.toList
  obtain ⟨givesOne, oneClosed, someOne⟩ := second.alone.gives sameOne formula.toList
  obtain ⟨givesTwo, twoClosed, someTwo⟩ := third.alone.gives sameTwo formula.toList
  obtain ⟨split, compiled⟩ := called (by
    simp [targetClosed, someTarget, oneClosed, someOne, twoClosed, someTwo])
  have plainTarget : keyword? atTarget = none := by
    rcases keyword?_cases (Alike.of_kinds sameTarget) with ⟨unkeyed, -⟩ | ⟨_, _, _, -, given, -⟩
    · exact unkeyed
    · rw [plain] at given
      cases given
  rw [compiled]
  exact callAt_slice split plainTarget targetRead givesOne givesTwo both

/-- The formula has this code and nests once more. -/
structure Nests (formula : String) (fragment : Fragment) : Prop where
  accepted : (compile formula).result = .ok fragment
  nested : ∃ other, (compile ("(" ++ formula ++ ")")).result = .ok other

/-- A formula that nests once more is read with one level less. -/
theorem Nests.alone {formula : String} {fragment : Fragment} (nests : Nests formula fragment) :
    ∃ tokens expr, tokenize formula = .ok tokens ∧ Alone 63 tokens expr ∧
      fragment = expr.fragment := by
  obtain ⟨_, parsed, -⟩ := compile_eq_ok.1 nests.accepted
  obtain ⟨tokens, lexed, -⟩ := parse_eq_ok.1 parsed
  obtain ⟨other, nested⟩ := nests.nested
  have wrappedOnce := spells_wrapped lexed 1
  have nonempty : tokens ≠ [] := by
    rintro rfl
    have brackets : wrappedTokens 1 [] ≠ [] := by simp [wrappedTokens, groupTokens]
    obtain ⟨expr, alone, -⟩ := (compile_of_spells wrappedOnce brackets).1 nested
    have refused : (readWhole (Grammar.readerAt 64) [] .entity (wrappedTokens 1 [])).result =
        .error (.malformed 0 (.unexpectedToken .closeParen)) := by cbv
    rw [Alone, maxNesting, refused] at alone
    cases alone
  obtain ⟨expr, alone, rfl⟩ :=
    (compile_of_spells (spells_of_tokenize lexed) nonempty).1 nests.accepted
  obtain ⟨depth, -, -, least⟩ := alone.exists_depth
  have within := ((compile_of_hasDepth wrappedOnce (wrappedTokens_ne_nil nonempty 1)
    (least.wrapped 1) other).1 nested).1
  rw [maxNesting] at within
  exact ⟨tokens, expr, lexed, (least 63).2 (by omega), rfl⟩

end Formula

/-- What a slice gives, from the codes of the array and of the index and from the literal for the
axis. A literal that fits no signed machine word is not taken for a number. -/
def IntegerLiteral.sliced (literal : IntegerLiteral) (array index : Fragment) :
    Except Fault Fragment :=
  if literal.value < -(2 ^ 63) ∨ 2 ^ 63 ≤ literal.value then
    .ok ⟨"np.take(" ++ array.code ++ ", " ++ index.code ++ ", axis=" ++ literal.text ++ ")",
      array.needs.join index.needs⟩
  else if 32 < literal.value.natAbs then
    .error (.keywordArgument "SLICE" (.axisOutOfRange literal.value))
  else if 0 ≤ literal.value then
    .ok ⟨array.code ++ "[" ++ repeated literal.value.natAbs ":, " ++ index.code ++ "]",
      array.needs.join index.needs⟩
  else
    .ok ⟨array.code ++ "[..., " ++ index.code ++ repeated (literal.value.natAbs - 1) ", :" ++ "]",
      array.needs.join index.needs⟩

theorem fill_sliceSignature (target axis index : String) :
    sliceSignature.template.fill [target] [("axis", axis), ("index", index)] =
      "np.take(" ++ target ++ ", " ++ index ++ ", axis=" ++ axis ++ ")" := by
  have first : Slot.ofKey "0" = .argument 0 := by decide
  have second : Slot.ofKey "index" = .named "index" := by decide
  have third : Slot.ofKey "axis" = .named "axis" := by decide
  simp [sliceSignature, Template.fill, Piece.fill, first, second, third, Slot.fill,
    List.lookup, String.append_assoc]

theorem sliced_eq (literal : IntegerLiteral) (array place : Expr) :
    ((Call.checkAxis sliceSignature literal.expr).map fun _ =>
        (Expr.slice sliceSignature array literal.expr place).fragment) =
      literal.sliced array.fragment place.fragment := by
  have needs : (Expr.slice sliceSignature array literal.expr place).needs =
      array.needs.join place.needs := by
    rw [Expr.needs, literal.needs_expr, Needs.join_none]
  have limit : maxLiteralAxis = 32 := rfl
  have named : sliceSignature.name = "SLICE" := rfl
  unfold Call.checkAxis IntegerLiteral.sliced
  rw [Expr.fragment, needs, Expr.render, sliceCode, literal.render_expr, literal.literalAxis?_text]
  by_cases fits : -(2 ^ 63) ≤ literal.value ∧ literal.value < 2 ^ 63
  · have within : ¬(literal.value < -(2 ^ 63) ∨ 2 ^ 63 ≤ literal.value) := by omega
    simp only [if_pos fits, if_neg within, limit, named]
    split
    · rfl
    · rw [indexAlong]
      split <;> rfl
  · have beyond : literal.value < -(2 ^ 63) ∨ 2 ^ 63 ≤ literal.value := by omega
    simp only [if_neg fits, if_pos beyond, fill_sliceSignature]
    rfl

namespace Formula

/-- A slice along a literal axis, with its keywords in either order. An axis of at most 32 either
way is indexed explicitly, counted from the first axis or from the last, and one farther out is
refused as long as it fits a signed machine word. Beyond that it is passed on unchecked. -/
theorem compile_slice_literal {target index : String} {array position : Fragment}
    (literal : IntegerLiteral) (first : Nests target array) (second : Nests index position)
    (plain : ∀ tokens, tokenize target = .ok tokens → ¬Call.StartsWithKeyword tokens) :
    (compile ("SLICE(" ++ target ++ ", axis=" ++ literal.text ++ ", index=" ++ index ++
        ")")).result = literal.sliced array position ∧
      (compile ("SLICE(" ++ target ++ ", index=" ++ index ++ ", axis=" ++ literal.text ++
        ")")).result = literal.sliced array position := by
  obtain ⟨tokens, expr, lexed, alone, rfl⟩ := first.alone
  obtain ⟨others, place, lexedToo, aloneToo, rfl⟩ := second.alone
  have noKeyword := Call.keyword?_eq_none.2 (plain tokens lexed)
  have inTarget := standalone_of_tokenize lexed alone
  have inIndex := standalone_of_tokenize lexedToo aloneToo
  have axisFirst := @compile_keyed .axis .index _ _ _ _ _ _ _ _ _ _ _ inTarget noKeyword
    literal.standalone inIndex rfl
  have indexFirst := @compile_keyed .index .axis _ _ _ _ _ _ _ _ _ _ _ inTarget noKeyword
    inIndex literal.standalone rfl
  rw [sliced_eq] at axisFirst indexFirst
  have axisKey : ", axis=" = ", " ++ Call.ArgumentKey.axis.name ++ "=" := by decide
  have indexKey : ", index=" = ", " ++ Call.ArgumentKey.index.name ++ "=" := by decide
  rw [axisKey, indexKey]
  simp only [String.append_assoc] at axisFirst indexFirst ⊢
  exact ⟨axisFirst, indexFirst⟩

/-- From the last axis but one, from beyond the limit, and from beyond a machine word. -/
theorem compile_slice_literal_bounds :
    (compile "SLICE(psi, axis=-2, index=k)").result =
        .ok (.plain "self.psi[..., self.k, :]") ∧
      (compile "SLICE(psi, index=k, axis=33)").result =
        .error (.keywordArgument "SLICE" (.axisOutOfRange 33)) ∧
      (compile "SLICE(psi, axis=9223372036854775808, index=k)").result =
        .ok (.plain "np.take(self.psi, self.k, axis=9223372036854775808)") := by
  have target : Nests "psi" (.plain "self.psi") := ⟨by cbv, _, by cbv⟩
  have index : Nests "k" (.plain "self.k") := ⟨by cbv, _, by cbv⟩
  have lexed : tokenize "psi" = .ok [⟨.ident "psi", 0, 3⟩] := by cbv
  have plain : ∀ tokens, tokenize "psi" = .ok tokens → ¬Call.StartsWithKeyword tokens := by
    intro tokens found
    rw [lexed] at found
    cases found
    exact Call.keyword?_eq_none.1 rfl
  have second := compile_slice_literal ⟨true, "2", by decide, by decide⟩ target index plain
  have beyond := compile_slice_literal ⟨false, "33", by decide, by decide⟩ target index plain
  have unread := compile_slice_literal ⟨false, "9223372036854775808", by decide, by decide⟩ target
    index plain
  exact ⟨second.1, beyond.2, unread.1⟩

end Formula

end Formulary
