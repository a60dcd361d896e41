import Formulary.Proofs.Boundaries
import Formulary.Proofs.InPlace
import Formulary.Proofs.Nested
import Formulary.Proofs.OperatorCode
import Formulary.Proofs.Report

set_option autoImplicit false

namespace Formulary

/-- The reader takes such an expression off the tokens and leaves this rest, or fails. -/
def Takes (reader : Reader) (context : Context) (tokens rest : List Token)
    (means : Expr → Prop) : Prop :=
  ∀ expr after, (reader context tokens).Yields expr after ↔ after = rest ∧ means expr

namespace Takes

open Grammar Traced

variable {operator? : Kind → Option BinaryOp} {operand : Reader} {inner : Inner}
  {context : Context} {tokens rest others : List Token} {means follows : Expr → Prop}

/-- Nothing of this level follows. -/
theorem single (first : Takes operand context tokens rest means)
    (stops : NotNext (fun kind => (operator? kind).isSome) rest) :
    Takes (leftAssociative operator? operand) context tokens rest means := by
  intro expr after
  rw [leftAssociative_yields]
  constructor
  · rintro ⟨value, middle, taken, chained⟩
    obtain ⟨rfl, meant⟩ := (first value middle).1 taken
    cases chained with
    | stop _ => exact ⟨rfl, meant⟩
    | step found _ _ => simp [found] at stops
  · rintro ⟨rfl, meant⟩
    exact ⟨expr, after, (first expr after).2 ⟨rfl, meant⟩, .stop stops⟩

/-- One operator of this level follows, with its second operand. -/
theorem pair {sign : Token} {op : BinaryOp}
    (first : Takes operand context tokens (sign :: others) means)
    (second : Takes operand context others rest follows) (found : operator? sign.kind = some op)
    (stops : NotNext (fun kind => (operator? kind).isSome) rest) :
    Takes (leftAssociative operator? operand) context tokens rest fun expr =>
      ∃ left right, means left ∧ follows right ∧ expr = .binary op left right := by
  intro expr after
  rw [leftAssociative_yields]
  constructor
  · rintro ⟨left, middle, taken, chained⟩
    obtain ⟨rfl, meant⟩ := (first left middle).1 taken
    cases chained with
    | stop ends => simp [found] at ends
    | step known taken more =>
      rw [found] at known
      cases known
      obtain ⟨rfl, behind⟩ := (second _ _).1 taken
      cases more with
      | stop _ => exact ⟨rfl, left, _, meant, behind, rfl⟩
      | step found _ _ => simp [found] at stops
  · rintro ⟨rfl, left, right, meant, behind, rfl⟩
    exact ⟨left, _, (first left _).2 ⟨rfl, meant⟩,
      .step found ((second right after).2 ⟨rfl, behind⟩) (.stop stops)⟩

theorem base (operand : Takes (primary inner) context tokens rest means)
    (stops : NotNext (· = .caret) rest) : Takes (power inner) context tokens rest means := by
  intro expr after
  rw [power_yields]
  constructor
  · rintro ⟨value, middle, taken, ⟨-, rfl, rfl⟩ | ⟨caret, _, _, rfl, kind, -⟩⟩
    · exact (operand expr after).1 taken
    · obtain ⟨rfl, -⟩ := (operand _ _).1 taken
      exact absurd kind (notNext_cons.1 stops)
  · rintro ⟨rfl, meant⟩
    exact ⟨expr, after, (operand expr after).2 ⟨rfl, meant⟩, .inl ⟨stops, rfl, rfl⟩⟩

theorem raised {caret : Token} (kind : caret.kind = .caret)
    (operand : Takes (primary inner) context tokens (caret :: others) means)
    (exponent : Takes (inner .signed) context others rest follows) :
    Takes (power inner) context tokens rest fun expr =>
      ∃ left right, means left ∧ follows right ∧ expr = .binary .power left right := by
  intro expr after
  rw [power_yields]
  constructor
  · rintro ⟨left, middle, taken, ⟨stops, -, rfl⟩ | ⟨_, _, right, rfl, -, raises, rfl⟩⟩
    · obtain ⟨rfl, -⟩ := (operand _ _).1 taken
      exact absurd kind (notNext_cons.1 stops)
    · obtain ⟨same, meant⟩ := (operand _ _).1 taken
      cases same
      obtain ⟨rfl, behind⟩ := (exponent _ _).1 raises
      exact ⟨rfl, left, right, meant, behind, rfl⟩
  · rintro ⟨rfl, left, right, meant, behind, rfl⟩
    exact ⟨left, _, (operand _ _).2 ⟨rfl, meant⟩,
      .inr ⟨caret, others, right, rfl, kind, (exponent _ _).2 ⟨rfl, behind⟩, rfl⟩⟩

theorem unsigned (operand : Takes (power inner) context tokens rest means)
    (starts : NotNext (fun kind => kind = .minus ∨ kind = .plus) tokens) :
    Takes (signed inner) context tokens rest means := by
  intro expr after
  rw [signed_unsigned starts]
  exact operand expr after

/-- At the end of a formula, a sum that no NOT stands in front of is the whole expression. -/
theorem expression (whole : Takes (sum inner) context tokens [] means)
    (starts : NotNext (· = .keyword .notWord) tokens) :
    Takes (disjunction inner) context tokens [] means := by
  have compared : Takes (comparison inner) context tokens [] means := by
    intro expr after
    rw [comparison_yields]
    constructor
    · rintro ⟨value, middle, taken, ⟨-, rfl, rfl⟩ | ⟨_, _, _, _, rfl, -⟩⟩
      · exact (whole expr after).1 taken
      · cases ((whole _ _).1 taken).1
    · rintro ⟨rfl, meant⟩
      exact ⟨expr, [], (whole expr []).2 ⟨rfl, meant⟩, .inl ⟨notNext_nil, rfl, rfl⟩⟩
  have negated : Takes (negation inner) context tokens [] means := by
    intro expr after
    rw [negation_positive starts]
    exact compared expr after
  exact (negated.single notNext_nil).single notNext_nil

end Takes

/-- The tokens are this expression when they are read on their own, with so many levels. -/
def Alone (levels : Nat) (tokens : List Token) (expr : Expr) : Prop :=
  (readWhole (Grammar.readerAt levels) [] .entity tokens).result = .ok expr

namespace Alone

variable {levels spare : Nat} {tokens : List Token} {expr : Expr}

theorem ne_nil (alone : Alone levels tokens expr) : tokens ≠ [] := (readWhole_eq_ok.1 alone).1

theorem closed (alone : Alone levels tokens expr) : Closed false tokens := by
  have sound := Grammar.soundReader_readerAt levels .expression
  exact closed_of_reads (Grammar.soundSlices_readWhole sound [] alone)

theorem more (alone : Alone levels tokens expr) : Alone (spare + levels) tokens expr := by
  obtain ⟨nonempty, yields⟩ := readWhole_eq_ok.1 alone
  obtain ⟨value, again, same⟩ := Grammar.yields_more spare [] (endOffset tokens) yields
  obtain rfl := same.resolve_right (by simp [opensNext])
  exact readWhole_eq_ok.2 ⟨nonempty, again⟩

end Alone

/-- A token of which only the kind matters. -/
def bare (kind : Kind) : Token := ⟨kind, 0, 0⟩

/-- An operand in brackets. -/
def groupTokens (inside rest : List Token) : List Token :=
  bare .openParen :: (inside ++ bare .closeParen :: rest)

/-- A call with two arguments. -/
def calledTokens (name : String) (first second : List Token) : List Token :=
  bare (.ident name) :: groupTokens (first ++ bare .comma :: second) []

/-- A conditional with its branches. -/
def conditionalTokens (test first second : List Token) : List Token :=
  bare (.keyword .ifWord) ::
    groupTokens test (bare (.keyword .thenWord) :: (first ++ bare (.keyword .elseWord) :: second))

/-- A conditional that is called. -/
def ifCalledTokens (test first second : List Token) : List Token :=
  bare (.keyword .ifWord) ::
    groupTokens (test ++ bare .comma :: (first ++ bare .comma :: second)) []

/-- The function of the table that a conditional is called by. -/
def ifSignature : Signature :=
  ⟨"IF", .exactly 3,
    [.literal "(", .hole "1", .literal " if ", .hole "0", .literal " else ", .hole "2",
      .literal ")"],
    .positional⟩

section Operands

open Grammar

variable {levels spare stop : Nat} {test first second rest : List Token} {condition yes no : Expr}

theorem takes_inPlace (accepted : Alone (spare + levels) first yes) (ending : Ending rest) :
    Takes (readerAt levels .expression) ⟨[], .entity, stop⟩ (first ++ rest) rest
      (Alone levels first) := fun _ _ => readerAt_inPlace ending accepted

theorem takes_group (accepted : Alone (spare + levels) first yes) :
    Takes (primary (readerAt levels)) ⟨[], .entity, stop⟩ (groupTokens first rest) rest
      (Alone levels first) := by
  intro expr after
  have inside := @takes_inPlace levels spare stop first (bare .closeParen :: rest) yes accepted
    (notNext_cons.2 (by decide))
  rw [groupTokens, primary_openParen rfl, group_yields]
  constructor
  · rintro ⟨exprs, last, listed, -, rfl⟩
    cases listed with
    | last taken _ =>
      obtain ⟨same, alone⟩ := (inside _ _).1 taken
      cases same
      exact ⟨rfl, alone⟩
    | more taken kind _ =>
      obtain ⟨same, -⟩ := (inside _ _).1 taken
      cases same
      cases kind
  · rintro ⟨rfl, alone⟩
    exact ⟨[expr], bare .closeParen,
      .last ((inside _ _).2 ⟨rfl, alone⟩) (notNext_cons.2 (by decide)), rfl, rfl⟩

theorem upToClose_group (closed : Closed true first) :
    upToClose 0 (first ++ bare .closeParen :: rest) = some (first, rest) :=
  upToClose_of_closed closed rfl

theorem closed_arguments (before : Closed true first) (behind : Closed true second) :
    Closed true (first ++ bare .comma :: second) := before.append (.token rfl behind)

theorem takes_called {name : String} {op : BinaryOp}
    (called : Operators.calledOperator? name = some op)
    (accepted : Alone (spare + levels) first yes)
    (acceptedToo : Alone (spare + levels) second no)
    (plain : Call.keyword? first = none) (plainToo : Call.keyword? second = none) :
    Takes (primary (readerAt levels)) ⟨[], .entity, stop⟩ (calledTokens name first second) []
      fun expr => ∃ left right, Alone levels first left ∧ Alone levels second right ∧
        expr = .call (Operators.calledSignature op) [left, right] := by
  intro expr after
  have inside := @upToClose_group _ []
    (closed_arguments accepted.closed.weaken acceptedToo.closed.weaken)
  have read := @Operators.read_called (readWhole (readerAt levels) []) [] .entity name op first
    second (bare .comma) expr called rfl accepted.closed acceptedToo.closed accepted.ne_nil
    acceptedToo.ne_nil plain plainToo
  rw [calledTokens, primary_ident rfl, groupTokens, named_call rfl, inside]
  constructor
  · rintro ⟨arguments, same, success⟩
    cases same
    exact ⟨rfl, read.1 success⟩
  · rintro ⟨rfl, meant⟩
    exact ⟨_, rfl, read.2 meant⟩

theorem takes_conditional (tested : Alone (spare + levels) test condition)
    (accepted : Alone (spare + levels) first yes)
    (acceptedToo : Alone (spare + levels) second no) :
    Takes (primary (readerAt levels)) ⟨[], .entity, stop⟩ (conditionalTokens test first second) []
      fun expr => ∃ one left right, Alone levels test one ∧ Alone levels first left ∧
        Alone levels second right ∧ expr = .conditional one left right := by
  intro expr after
  have inside := @upToClose_group test
    (bare (.keyword .thenWord) :: (first ++ bare (.keyword .elseWord) :: second))
    tested.closed.weaken
  have before := @takes_inPlace levels spare stop first (bare (.keyword .elseWord) :: second) yes
    accepted (notNext_cons.2 (by decide))
  have behind := @takes_inPlace levels spare stop second [] no acceptedToo notNext_nil
  rw [List.append_nil] at behind
  rw [conditionalTokens, primary_if rfl, groupTokens, conditional_yields]
  constructor
  · rintro ⟨_, _, within, tail, same, -, closed, ended⟩
    cases same
    rw [inside] at closed
    cases closed
    rcases ended with ⟨stops, -⟩ | ⟨_, _, one, same, -, success, branch⟩
    · exact (notNext_cons.1 stops rfl).elim
    · cases same
      obtain ⟨left, _, _, right, taken, -, others, rfl⟩ := branches_yields.1 branch
      obtain ⟨same, aloneYes⟩ := (before _ _).1 taken
      cases same
      obtain ⟨rfl, aloneNo⟩ := (behind _ _).1 others
      exact ⟨rfl, one, left, right, success, aloneYes, aloneNo, rfl⟩
  · rintro ⟨rfl, one, left, right, success, aloneYes, aloneNo, rfl⟩
    refine ⟨bare .openParen, _, test, _, rfl, rfl, inside,
      .inr ⟨bare (.keyword .thenWord), _, one, rfl, rfl, success, branches_yields.2 ?_⟩⟩
    exact ⟨left, bare (.keyword .elseWord), second, right, (before _ _).2 ⟨rfl, aloneYes⟩, rfl,
      (behind _ _).2 ⟨rfl, aloneNo⟩, rfl⟩

theorem takes_ifCalled (tested : Alone (spare + levels) test condition)
    (accepted : Alone (spare + levels) first yes)
    (acceptedToo : Alone (spare + levels) second no)
    (plain : ∀ part ∈ [test, first, second], Call.keyword? part = none) :
    Takes (primary (readerAt levels)) ⟨[], .entity, stop⟩ (ifCalledTokens test first second) []
      fun expr => ∃ one left right, Alone levels test one ∧ Alone levels first left ∧
        Alone levels second right ∧ expr = .call ifSignature [one, left, right] := by
  intro expr after
  have inside := @upToClose_group _ [] (closed_arguments tested.closed.weaken
    (closed_arguments accepted.closed.weaken acceptedToo.closed.weaken))
  have split := @splitArguments_triple test first second (bare .comma) (bare .comma) tested.closed
    accepted.closed acceptedToo.closed tested.ne_nil accepted.ne_nil acceptedToo.ne_nil rfl rfl
  have known : Signature.lookup? ("IF" : String).toUpper = some ifSignature := by decide_cbv
  have read := @Operators.read_positional (readWhole (readerAt levels) []) [] .entity "IF"
    ifSignature _ _ expr known rfl (by decide_cbv) split rfl plain
  rw [ifCalledTokens, primary_if rfl, groupTokens, conditional_yields]
  constructor
  · rintro ⟨_, _, within, tail, same, -, closed, ended⟩
    cases same
    rw [inside] at closed
    cases closed
    rcases ended with ⟨-, rfl, success⟩ | ⟨_, _, _, same, -⟩
    · obtain ⟨_, _ | ⟨one, _ | ⟨left, _ | ⟨right, _ | _⟩⟩⟩, rfl⟩ := read.1 success
      exact ⟨rfl, _, _, _, one, left, right, rfl⟩
    · cases same
  · rintro ⟨rfl, one, left, right, aloneTest, aloneYes, aloneNo, rfl⟩
    refine ⟨bare .openParen, _, _, [], rfl, rfl, inside, .inl ⟨notNext_nil, rfl, read.2 ?_⟩⟩
    exact ⟨_, .cons aloneTest (.cons aloneYes (.cons aloneNo .nil)), rfl⟩

end Operands

theorem fragment_called {op : BinaryOp} (called : op ∈ Operators.calledOperators)
    (left right : Expr) :
    (Expr.call (Operators.calledSignature op) [left, right]).fragment =
      (Expr.binary op left right).fragment := by
  have code : (Expr.call (Operators.calledSignature op) [left, right]).render =
      (Expr.binary op left right).render := by
    simp only [Expr.render, Expr.renderAll]
    rw [Operators.calledSignature, Operators.Tree.fill_between, BinaryOp.code,
      Operators.Tree.symbol_of_called called right.render, Operators.Tree.symbol_eq]
  have needs : (Expr.call (Operators.calledSignature op) [left, right]).needs =
      (Expr.binary op left right).needs := by
    rw [Expr.needs_eq, Expr.needs_eq]
    rfl
  rw [Expr.fragment, Expr.fragment, code, needs]

theorem fragment_ifCalled (test left right : Expr) :
    (Expr.call ifSignature [test, left, right]).fragment =
      (Expr.conditional test left right).fragment := by
  have code : (Expr.call ifSignature [test, left, right]).render =
      (Expr.conditional test left right).render := by
    have first : Slot.ofKey "0" = .argument 0 := by decide
    have second : Slot.ofKey "1" = .argument 1 := by decide
    have third : Slot.ofKey "2" = .argument 2 := by decide
    simp [Expr.render, Expr.renderAll, ifSignature, Template.fill, Piece.fill, first, second,
      third, Slot.fill, conditionalCode, String.append_assoc]
  have needs : (Expr.call ifSignature [test, left, right]).needs =
      (Expr.conditional test left right).needs := by
    rw [Expr.needs_eq, Expr.needs_eq]
    rfl
  rw [Expr.fragment, Expr.fragment, code, needs]

namespace Formula

open Grammar

/-- A formula of at least one token that compiles on its own, and that a call does not take for an
argument with a keyword. -/
structure IsOperand (formula : String) (tokens : List Token) : Prop where
  lexed : tokenize formula = .ok tokens
  nonempty : tokens ≠ []
  plain : Call.keyword? tokens = none
  accepted : ∃ fragment, (compile formula).result = .ok fragment

/-- Tokens that a formula spells are alike to its own. -/
theorem exists_alike_of_spells {formula : String} {tokens : List Token}
    (spelled : Spells formula.toList (tokens.map Token.kind)) (nonempty : tokens ≠ []) :
    ∃ found, tokenize formula = .ok found ∧ found ≠ [] ∧ Alike found tokens := by
  obtain ⟨found, lexed, same⟩ := spelled 0
  refine ⟨found, lexed, ?_, Alike.of_kinds same⟩
  rintro rfl
  exact nonempty (List.map_eq_nil_iff.1 same.symm)

/-- The code of a formula is that of tokens of the same kinds. -/
theorem compile_of_spells {formula : String} {tokens : List Token} {fragment : Fragment}
    (spelled : Spells formula.toList (tokens.map Token.kind)) (nonempty : tokens ≠ []) :
    (compile formula).result = .ok fragment ↔
      ∃ expr, Alone maxNesting tokens expr ∧ fragment = expr.fragment := by
  obtain ⟨found, lexed, foundSome, alike⟩ := exists_alike_of_spells spelled nonempty
  have follows := readSlice_follows formula.toList [] alike
  rw [compile_eq_ok]
  refine exists_congr fun expr => and_congr_left fun _ => ?_
  rw [parse_eq_ok]
  constructor
  · rintro ⟨_, again, ⟨rfl, -⟩ | ⟨-, success⟩⟩
    · rw [lexed] at again
      cases again
      exact absurd rfl foundSome
    · rw [lexed] at again
      cases again
      exact follows.eq_ok_iff.1 success
  · intro alone
    exact ⟨found, lexed, .inr ⟨foundSome, follows.eq_ok_iff.2 alone⟩⟩

theorem IsOperand.alone {formula : String} {tokens : List Token}
    (operand : IsOperand formula tokens) : ∃ expr, Alone maxNesting tokens expr := by
  obtain ⟨fragment, success⟩ := operand.accepted
  have spelled := spells_of_tokenize operand.lexed
  obtain ⟨expr, alone, -⟩ := (compile_of_spells spelled operand.nonempty).1 success
  exact ⟨expr, alone⟩

/-- The whole of a formula is read as a sum. -/
theorem compile_of_takes {formula : String} {tokens : List Token} {means : Expr → Prop}
    {fragment : Fragment} (spelled : Spells formula.toList (tokens.map Token.kind))
    (nonempty : tokens ≠ []) (starts : NotNext (· = .keyword .notWord) tokens)
    (takes : ∀ stop, Takes (sum (readerAt 63)) ⟨[], .entity, stop⟩ tokens [] means) :
    (compile formula).result = .ok fragment ↔ ∃ expr, means expr ∧ fragment = expr.fragment := by
  rw [compile_of_spells spelled nonempty]
  refine exists_congr fun expr => and_congr_left fun _ => ?_
  have whole := (takes (endOffset tokens)).expression starts expr []
  rw [Alone, readWhole_eq_ok]
  exact ⟨fun alone => (whole.1 alone.2).2, fun meant => ⟨nonempty, whole.2 ⟨rfl, meant⟩⟩⟩

/-- A primary that is the whole of a formula. -/
theorem takes_alone {tokens : List Token} {inner : Inner} {context : Context}
    {means : Expr → Prop} (taken : Takes (primary inner) context tokens [] means)
    (starts : NotNext (fun kind => kind = .minus ∨ kind = .plus) tokens) :
    Takes (sum inner) context tokens [] means :=
  (((taken.base notNext_nil).unsigned starts).single notNext_nil).single notNext_nil

section Forms

variable {a b c : String} {first second third : List Token}

/-- What stands behind an operand starts with a boundary. -/
theorem IsOperand.spells {more : List Char} {mark : Char} {kinds : List Kind}
    (operand : IsOperand a first) (boundary : IsBoundary mark)
    (behind : Spells (mark :: more) kinds) :
    Spells (a.toList ++ mark :: more) (first.map Token.kind ++ kinds) :=
  spells_append operand.lexed (by simpa using boundary) behind

theorem spells_open {cs : List Char} {kinds : List Kind} (behind : Spells cs kinds) :
    Spells ('(' :: cs) (.openParen :: kinds) := .lexeme rfl rfl behind

theorem spells_close {cs : List Char} {kinds : List Kind} (behind : Spells cs kinds) :
    Spells (')' :: cs) (.closeParen :: kinds) := .lexeme rfl rfl behind

theorem spells_space {cs : List Char} {kinds : List Kind} (behind : Spells cs kinds) :
    Spells (' ' :: cs) kinds := .separator rfl behind

theorem spells_comma {cs : List Char} {kinds : List Kind} (behind : Spells cs kinds) :
    Spells (',' :: ' ' :: cs) (.comma :: kinds) := .lexeme rfl rfl (spells_space behind)

/-- A word in front of a boundary. -/
theorem spells_word {word : String} {mark : Char} {more : List Char} {kind : Kind}
    {kinds : List Kind} (alone : (tokenize word).map (List.map Token.kind) = .ok [kind])
    (boundary : IsBoundary mark) (behind : Spells (mark :: more) kinds) :
    Spells (word.toList ++ mark :: more) (kind :: kinds) := by
  cases lexed : tokenize word with
  | error fault =>
    rw [lexed] at alone
    cases alone
  | ok tokens =>
    rw [lexed] at alone
    have same : tokens.map Token.kind = [kind] := Except.ok.inj alone
    have whole := spells_append lexed (by simpa using boundary) behind
    rwa [same] at whole

theorem named_functionName {op : BinaryOp} (called : op ∈ Operators.calledOperators) :
    (tokenize (Operators.functionName op)).map (List.map Token.kind) =
        .ok [.ident (Operators.functionName op)] ∧
      Operators.calledOperator? (Operators.functionName op) = some op := by
  simp only [Operators.calledOperators, List.mem_cons, List.not_mem_nil, or_false] at called
  rcases called with rfl | rfl | rfl | rfl | rfl <;> exact ⟨by cbv, by decide_cbv⟩

/-- The values of two operands that are read with so many levels, under an operator. -/
def Means (op : BinaryOp) (levels deeper : Nat) (first second : List Token) (expr : Expr) : Prop :=
  ∃ one two, Alone levels first one ∧ Alone deeper second two ∧ expr = .binary op one two

theorem compile_called {op : BinaryOp} {fragment : Fragment} (left : IsOperand a first)
    (right : IsOperand b second) (called : op ∈ Operators.calledOperators) :
    (compile (Operators.functionName op ++ "(" ++ a ++ ", " ++ b ++ ")")).result = .ok fragment ↔
      ∃ expr, Means op 63 63 first second expr ∧ fragment = expr.fragment := by
  obtain ⟨_, accepted⟩ := left.alone
  obtain ⟨_, acceptedToo⟩ := right.alone
  obtain ⟨word, known⟩ := named_functionName called
  have spelled : Spells (Operators.functionName op ++ "(" ++ a ++ ", " ++ b ++ ")").toList
      ((calledTokens (Operators.functionName op) first second).map Token.kind) := by
    have whole := spells_word word isBoundary_openParen (spells_open
      (left.spells isBoundary_comma (spells_comma
        (right.spells isBoundary_closeParen (spells_close .nil)))))
    simpa [calledTokens, groupTokens, bare, String.toList_append] using whole
  have takes (stop : Nat) := takes_alone (@takes_called 63 1 stop first second _ _ _ op known
    accepted acceptedToo left.plain right.plain) (notNext_cons.2 (by simp [bare]))
  rw [compile_of_takes spelled (by simp [calledTokens]) (by simp [calledTokens, bare]) takes]
  constructor
  · rintro ⟨_, ⟨one, two, aloneFirst, aloneSecond, rfl⟩, rfl⟩
    exact ⟨_, ⟨one, two, aloneFirst, aloneSecond, rfl⟩, fragment_called called one two⟩
  · rintro ⟨_, ⟨one, two, aloneFirst, aloneSecond, rfl⟩, rfl⟩
    exact ⟨_, ⟨one, two, aloneFirst, aloneSecond, rfl⟩, (fragment_called called one two).symm⟩

/-- An operator between two operands in brackets. -/
def writtenTokens (sign : Kind) (first second : List Token) : List Token :=
  groupTokens first (bare sign :: groupTokens second [])

/-- A text of one character is a sign when a space follows. -/
structure IsSign (sign : String) (kind : Kind) (mark : Char) : Prop where
  spelled : sign.toList = [mark]
  other : isSeparator mark = false
  read : ∀ rest, Lexeme.read? (mark :: ' ' :: rest) = some ⟨kind, [mark], ' ' :: rest⟩

theorem spells_written {sign : String} {mark : Char} {kind : Kind} (left : IsOperand a first)
    (right : IsOperand b second) (isSign : IsSign sign kind mark) :
    Spells ("(" ++ a ++ ") " ++ sign ++ " (" ++ b ++ ")").toList
      ((writtenTokens kind first second).map Token.kind) := by
  have operand := spells_space
    (spells_open (right.spells isBoundary_closeParen (spells_close .nil)))
  have whole := spells_open (left.spells isBoundary_closeParen (spells_close
    (spells_space (.lexeme isSign.other (isSign.read _) operand))))
  simpa [writtenTokens, groupTokens, bare, String.toList_append, isSign.spelled] using whole

/-- An operand in brackets, with a sign behind it or nothing. -/
theorem takes_operand {levels stop : Nat} {rest : List Token} {whole : Expr} {spare : Nat}
    (accepted : Alone (spare + levels) first whole) (stops : NotNext (· = .caret) rest) :
    Takes (signed (readerAt levels)) ⟨[], .entity, stop⟩ (groupTokens first rest) rest
      (Alone levels first) :=
  ((takes_group accepted).base stops).unsigned (notNext_cons.2 (by simp [bare]))

theorem takes_sum {kind : Kind} {op : BinaryOp} {stop : Nat} {one two : Expr}
    (accepted : Alone (1 + 63) first one) (acceptedToo : Alone (1 + 63) second two)
    (found : sumOperator? kind = some op) :
    Takes (sum (readerAt 63)) ⟨[], .entity, stop⟩ (writtenTokens kind first second) []
      (Means op 63 63 first second) := by
  have apart : kind ≠ .caret ∧ productOperator? kind = none := by
    cases kind <;> simp_all [sumOperator?, productOperator?]
  have operand := @takes_operand first 63 stop (bare kind :: groupTokens second []) one 1 accepted
    (notNext_cons.2 apart.1)
  have before := @Takes.single productOperator? _ _ _ _ _ operand
    (notNext_cons.2 (by simp [bare, apart.2]))
  exact before.pair ((takes_operand acceptedToo notNext_nil).single notNext_nil) found notNext_nil

theorem takes_product {kind : Kind} {op : BinaryOp} {stop : Nat} {one two : Expr}
    (accepted : Alone (1 + 63) first one) (acceptedToo : Alone (1 + 63) second two)
    (found : productOperator? kind = some op) :
    Takes (sum (readerAt 63)) ⟨[], .entity, stop⟩ (writtenTokens kind first second) []
      (Means op 63 63 first second) := by
  have apart : kind ≠ .caret := by
    rintro rfl
    cases found
  have before := @takes_operand first 63 stop (bare kind :: groupTokens second []) one 1 accepted
    (notNext_cons.2 apart)
  exact (before.pair (takes_operand acceptedToo notNext_nil) found notNext_nil).single notNext_nil

/-- The exponent is read one level deeper. -/
theorem takes_power {stop : Nat} {one two : Expr} (accepted : Alone (1 + 63) first one)
    (acceptedToo : Alone (2 + 62) second two) :
    Takes (sum (readerAt 63)) ⟨[], .entity, stop⟩ (writtenTokens .caret first second) []
      (Means .power 63 62 first second) := by
  have before := @takes_group 63 1 stop first (bare .caret :: groupTokens second []) one accepted
  have exponent := @takes_operand second 62 stop [] two 2 acceptedToo notNext_nil
  have raised := (before.raised rfl exponent).unsigned (notNext_cons.2 (by simp [bare]))
  exact (raised.single notNext_nil).single notNext_nil

theorem compile_written {kind : Kind} {op : BinaryOp} {sign : String} {mark : Char} {deeper : Nat}
    {fragment : Fragment} (left : IsOperand a first) (right : IsOperand b second)
    (isSign : IsSign sign kind mark)
    (takes : ∀ stop, Takes (sum (readerAt 63)) ⟨[], .entity, stop⟩
      (writtenTokens kind first second) [] (Means op 63 deeper first second)) :
    (compile ("(" ++ a ++ ") " ++ sign ++ " (" ++ b ++ ")")).result = .ok fragment ↔
      ∃ expr, Means op 63 deeper first second expr ∧ fragment = expr.fragment :=
  compile_of_takes (spells_written left right isSign) (by simp [writtenTokens, groupTokens])
    (notNext_cons.2 (by simp [bare])) takes

theorem compile_ifCalled {fragment : Fragment} (condition : IsOperand c third)
    (left : IsOperand a first) (right : IsOperand b second) :
    (compile ("IF(" ++ c ++ ", " ++ a ++ ", " ++ b ++ ")")).result = .ok fragment ↔
      (compile ("IF (" ++ c ++ ") THEN " ++ a ++ " ELSE " ++ b)).result = .ok fragment := by
  obtain ⟨_, tested⟩ := condition.alone
  obtain ⟨_, accepted⟩ := left.alone
  obtain ⟨_, acceptedToo⟩ := right.alone
  have ifWord : (tokenize "IF").map (List.map Token.kind) = .ok [.keyword .ifWord] := by cbv
  have thenWord : (tokenize "THEN").map (List.map Token.kind) = .ok [.keyword .thenWord] := by cbv
  have elseWord : (tokenize "ELSE").map (List.map Token.kind) = .ok [.keyword .elseWord] := by cbv
  have spelled : Spells ("IF(" ++ c ++ ", " ++ a ++ ", " ++ b ++ ")").toList
      ((ifCalledTokens third first second).map Token.kind) := by
    have whole := spells_word ifWord isBoundary_openParen (spells_open
      (condition.spells isBoundary_comma (spells_comma
        (left.spells isBoundary_comma (spells_comma
          (right.spells isBoundary_closeParen (spells_close .nil)))))))
    simpa [ifCalledTokens, groupTokens, bare, String.toList_append] using whole
  have spelledOut : Spells ("IF (" ++ c ++ ") THEN " ++ a ++ " ELSE " ++ b).toList
      ((conditionalTokens third first second).map Token.kind) := by
    have no := spells_space (spells_of_tokenize right.lexed)
    have yes := left.spells isBoundary_space
      (spells_space (spells_word elseWord isBoundary_space no))
    have branches := spells_word thenWord isBoundary_space (spells_space yes)
    have whole := spells_word ifWord isBoundary_space (spells_space (spells_open
      (condition.spells isBoundary_closeParen (spells_close (spells_space branches)))))
    simpa [conditionalTokens, groupTokens, bare, String.toList_append] using whole
  have called (stop : Nat) := takes_alone (@takes_ifCalled 63 1 stop third first second _ _ _ tested
    accepted acceptedToo (by simp [condition.plain, left.plain, right.plain]))
    (notNext_cons.2 (by simp [bare]))
  have written (stop : Nat) := takes_alone (@takes_conditional 63 1 stop third first second _ _ _
    tested accepted acceptedToo) (notNext_cons.2 (by simp [bare]))
  rw [compile_of_takes spelled (by simp [ifCalledTokens]) (notNext_cons.2 (by simp [bare])) called,
    compile_of_takes spelledOut (by simp [conditionalTokens]) (notNext_cons.2 (by simp [bare]))
      written]
  constructor
  · rintro ⟨_, ⟨one, yes, no, aloneTest, aloneYes, aloneNo, rfl⟩, rfl⟩
    exact ⟨_, ⟨one, yes, no, aloneTest, aloneYes, aloneNo, rfl⟩, fragment_ifCalled one yes no⟩
  · rintro ⟨_, ⟨one, yes, no, aloneTest, aloneYes, aloneNo, rfl⟩, rfl⟩
    exact ⟨_, ⟨one, yes, no, aloneTest, aloneYes, aloneNo, rfl⟩,
      (fragment_ifCalled one yes no).symm⟩

theorem called_iff_written {op : BinaryOp} {kind : Kind} {sign : String} {mark : Char}
    (left : IsOperand a first) (right : IsOperand b second)
    (called : op ∈ Operators.calledOperators) (isSign : IsSign sign kind mark)
    (takes : ∀ stop, Takes (sum (readerAt 63)) ⟨[], .entity, stop⟩
      (writtenTokens kind first second) [] (Means op 63 63 first second))
    (fragment : Fragment) :
    (compile (Operators.functionName op ++ "(" ++ a ++ ", " ++ b ++ ")")).result = .ok fragment ↔
      (compile ("(" ++ a ++ ") " ++ sign ++ " (" ++ b ++ ")")).result = .ok fragment :=
  (compile_called left right called).trans (compile_written left right isSign takes).symm

/-- A call of an arithmetic function is its operator between operands in brackets, and a call of IF
is the conditional, for all operands that are formulas of their own. POWER takes an exponent that is
nested one level deeper than `^` does. -/
theorem compile_called_iff_written (left : IsOperand a first) (right : IsOperand b second)
    (condition : IsOperand c third) :
    (∀ form ∈ [("ADD", "+"), ("SUBTRACT", "-"), ("MULTIPLY", "*"), ("DIVIDE", "/")], ∀ fragment,
      (compile (form.1 ++ "(" ++ a ++ ", " ++ b ++ ")")).result = .ok fragment ↔
        (compile ("(" ++ a ++ ") " ++ form.2 ++ " (" ++ b ++ ")")).result = .ok fragment) ∧
    (∀ fragment, (compile ("IF(" ++ c ++ ", " ++ a ++ ", " ++ b ++ ")")).result = .ok fragment ↔
      (compile ("IF (" ++ c ++ ") THEN " ++ a ++ " ELSE " ++ b)).result = .ok fragment) ∧
    ∀ fragment, (compile ("(" ++ a ++ ") ^ (" ++ b ++ ")")).result = .ok fragment →
      (compile ("POWER(" ++ a ++ ", " ++ b ++ ")")).result = .ok fragment := by
  obtain ⟨_, accepted⟩ := left.alone
  obtain ⟨_, acceptedToo⟩ := right.alone
  refine ⟨?_, fun fragment => compile_ifCalled condition left right, ?_⟩
  · have add := @called_iff_written a b first second .add .plus "+" '+' left right (by decide)
      ⟨rfl, rfl, fun _ => rfl⟩ fun _ => takes_sum accepted acceptedToo rfl
    have subtract := @called_iff_written a b first second .subtract .minus "-" '-' left right
      (by decide) ⟨rfl, rfl, fun _ => rfl⟩ fun _ => takes_sum accepted acceptedToo rfl
    have multiply := @called_iff_written a b first second .multiply .star "*" '*' left right
      (by decide) ⟨rfl, rfl, fun _ => rfl⟩ fun _ => takes_product accepted acceptedToo rfl
    have divide := @called_iff_written a b first second .divide .slash "/" '/' left right
      (by decide) ⟨rfl, rfl, fun _ => rfl⟩ fun _ => takes_product accepted acceptedToo rfl
    simp only [List.forall_mem_cons, List.not_mem_nil, false_implies, implies_true, and_true]
    exact ⟨add, subtract, multiply, divide⟩
  · intro fragment success
    have spelled : "(" ++ a ++ ") ^ (" ++ b ++ ")" =
        "(" ++ a ++ ") " ++ "^" ++ " (" ++ b ++ ")" := by
      rw [← String.toList_inj]
      simp [String.toList_append]
    rw [spelled] at success
    obtain ⟨_, ⟨one, two, base, exponent, rfl⟩, rfl⟩ :=
      (compile_written left right ⟨rfl, rfl, fun _ => rfl⟩
        fun _ => takes_power accepted acceptedToo).1 success
    have called := @compile_called a b first second .power (Expr.binary .power one two).fragment
      left right (by decide)
    exact called.2 ⟨_, ⟨one, two, base, exponent.more, rfl⟩, rfl⟩

end Forms

theorem compile_called_iff_written_branches :
    (compile "(x - 1) + (IF (y) THEN 2 ELSE 3)").result =
        .ok (.plain "((self.x - 1) + (2 if self.y else 3))") ∧
      (compile "ADD(x - 1, IF (y) THEN 2 ELSE 3)").result =
        .ok (.plain "((self.x - 1) + (2 if self.y else 3))") := by
  have evaluated : (compile "x - 1").result.toOption = some (.plain "(self.x - 1)") ∧
      (compile "IF (y) THEN 2 ELSE 3").result.toOption = some (.plain "(2 if self.y else 3)") ∧
      (compile "(x - 1) + (IF (y) THEN 2 ELSE 3)").result.toOption =
        some (.plain "((self.x - 1) + (2 if self.y else 3))") := by
    decide +kernel
  obtain ⟨difference, branches, sum⟩ := evaluated
  have left : IsOperand "x - 1" [⟨.ident "x", 0, 1⟩, ⟨.minus, 2, 3⟩, ⟨.number "1", 4, 5⟩] :=
    ⟨by cbv, by simp, rfl, _, eq_ok_of_toOption difference⟩
  have right : IsOperand "IF (y) THEN 2 ELSE 3" [⟨.keyword .ifWord, 0, 2⟩, ⟨.openParen, 3, 4⟩,
      ⟨.ident "y", 4, 5⟩, ⟨.closeParen, 5, 6⟩, ⟨.keyword .thenWord, 7, 11⟩, ⟨.number "2", 12, 13⟩,
      ⟨.keyword .elseWord, 14, 18⟩, ⟨.number "3", 19, 20⟩] :=
    ⟨by cbv, by simp, rfl, _, eq_ok_of_toOption branches⟩
  have written := eq_ok_of_toOption sum
  exact ⟨written, ((compile_called_iff_written left right left).1 ("ADD", "+") (by simp) _).2
    written⟩

end Formula

end Formulary
