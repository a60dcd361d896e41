import Formulary.Formula.Basic

set_option autoImplicit false

namespace Formulary

namespace Traced

/-- The computation ends with this expression and leaves these tokens. -/
def Yields {bound : Nat} (step : Traced (Step bound)) (expr : Expr) (rest : List Token) : Prop :=
  ∃ shorter, step.result = .ok ⟨expr, rest, shorter⟩

@[simp] theorem yields_fail {bound : Nat} {fault : Fault} {expr : Expr} {rest : List Token} :
    (fail fault : Traced (Step bound)).Yields expr rest ↔ False := by
  simp [Yields]

@[simp] theorem yields_pure {bound : Nat} {step : Step bound} {expr : Expr} {rest : List Token} :
    (pure step : Traced (Step bound)).Yields expr rest ↔ expr = step.expr ∧ rest = step.rest := by
  obtain ⟨found, left, shorter⟩ := step
  simp only [Yields, result_pure, Except.ok.injEq, Step.mk.injEq]
  constructor
  · rintro ⟨_, rfl, rfl⟩
    exact ⟨rfl, rfl⟩
  · rintro ⟨rfl, rfl⟩
    exact ⟨shorter, rfl, rfl⟩

theorem yields_bind {α : Type} {bound : Nat} {first : Traced α} {next : α → Traced (Step bound)}
    {expr : Expr} {rest : List Token} :
    (first >>= next).Yields expr rest ↔
      ∃ value, first.result = .ok value ∧ (next value).Yields expr rest := by
  simp only [Yields, result_bind_eq_ok]
  constructor
  · rintro ⟨shorter, value, success, done⟩
    exact ⟨value, success, shorter, done⟩
  · rintro ⟨value, success, shorter, done⟩
    exact ⟨shorter, value, success, done⟩

/-- After a step, what follows sees its expression and the tokens that it left. -/
theorem yields_bind_step {bound wider : Nat} {first : Traced (Step bound)}
    {next : Step bound → Traced (Step wider)} {expr : Expr} {rest : List Token} :
    (first >>= next).Yields expr rest ↔
      ∃ middle left shorter, first.result = .ok ⟨middle, left, shorter⟩ ∧
        (next ⟨middle, left, shorter⟩).Yields expr rest := by
  rw [yields_bind]
  constructor
  · rintro ⟨⟨middle, left, shorter⟩, success, done⟩
    exact ⟨middle, left, shorter, success, done⟩
  · rintro ⟨middle, left, shorter, success, done⟩
    exact ⟨_, success, done⟩

/-- Two computations in a row, the second of which depends on the expression and the tokens of the
first only. -/
theorem yields_bind_iff {bound wider : Nat} {first : Traced (Step bound)}
    {next : Step bound → Traced (Step wider)} {expr : Expr} {rest : List Token}
    (after : Expr → List Token → Prop)
    (same : ∀ middle left shorter,
      (next ⟨middle, left, shorter⟩).Yields expr rest ↔ after middle left) :
    (first >>= next).Yields expr rest ↔
      ∃ middle left, first.Yields middle left ∧ after middle left := by
  rw [yields_bind_step]
  constructor
  · rintro ⟨middle, left, shorter, success, done⟩
    exact ⟨middle, left, ⟨shorter, success⟩, (same _ _ _).1 done⟩
  · rintro ⟨middle, left, ⟨shorter, success⟩, done⟩
    exact ⟨middle, left, shorter, success, (same _ _ _).2 done⟩

end Traced

/-- No token of such a kind stands next. -/
def NotNext (test : Kind → Prop) (tokens : List Token) : Prop :=
  ∀ token ∈ tokens.head?, ¬ test token.kind

@[simp] theorem notNext_nil {test : Kind → Prop} : NotNext test [] := by simp [NotNext]

@[simp] theorem notNext_cons {test : Kind → Prop} {token : Token} {rest : List Token} :
    NotNext test (token :: rest) ↔ ¬ test token.kind := by simp [NotNext]

theorem readWhole_eq_ok {inner : Inner} {source : List Char} {scope : Scope}
    {tokens : List Token} {expr : Expr} :
    (readWhole inner source scope tokens).result = .ok expr ↔
      tokens ≠ [] ∧
        (inner .expression ⟨source, scope, endOffset tokens⟩ tokens).Yields expr [] := by
  cases tokens with
  | nil => simp [readWhole]
  | cons first more =>
    rw [readWhole, Traced.result_bind_eq_ok]
    constructor
    · rintro ⟨⟨found, left, shorter⟩, success, done⟩
      cases left with
      | nil =>
        obtain rfl : found = expr := Except.ok.inj done
        exact ⟨by simp, shorter, success⟩
      | cons extra left => cases done
    · rintro ⟨-, shorter, success⟩
      exact ⟨_, success, rfl⟩

namespace Grammar

open Traced

/-- The operands and operators of one level that a chain takes, and what it makes of them. -/
inductive Chained (operator? : Kind → Option BinaryOp) (operand : Reader) (context : Context) :
    Expr → List Token → Expr → List Token → Prop where
  | stop {left : Expr} {tokens : List Token}
      (stops : NotNext (fun kind => (operator? kind).isSome) tokens) :
      Chained operator? operand context left tokens left tokens
  | step {op : BinaryOp} {left right final : Expr} {token : Token} {rest middle last : List Token}
      (found : operator? token.kind = some op)
      (taken : (operand context rest).Yields right middle)
      (more : Chained operator? operand context (.binary op left right) middle final last) :
      Chained operator? operand context left (token :: rest) final last

/-- A step that is only moved to a wider bound is the step itself. -/
theorem yields_widen {bound wider : Nat} {first : Traced (Step bound)} {le : bound ≤ wider}
    {expr : Expr} {rest : List Token} :
    (first >>= fun step => pure (step.widen le)).Yields expr rest ↔ first.Yields expr rest := by
  rw [yields_bind_iff fun final last => expr = final ∧ rest = last]
  · simp
  · intro final last _
    simp [Step.widen]

private theorem chain_yields_step {operator? : Kind → Option BinaryOp} {operand : Reader}
    {context : Context} {op : BinaryOp} {left expr : Expr} {token : Token}
    {tokens rest : List Token} (found : operator? token.kind = some op) :
    (chain operator? operand context left (token :: tokens)).Yields expr rest ↔
      ∃ right middle, (operand context tokens).Yields right middle ∧
        (chain operator? operand context (.binary op left right) middle).Yields expr rest := by
  rw [chain, found]
  apply yields_bind_iff
  intro right middle shorter
  exact yields_widen

private theorem chain_yields_stop {operator? : Kind → Option BinaryOp} {operand : Reader}
    {context : Context} {left expr : Expr} {tokens rest : List Token}
    (stops : NotNext (fun kind => (operator? kind).isSome) tokens) :
    (chain operator? operand context left tokens).Yields expr rest ↔
      expr = left ∧ rest = tokens := by
  cases tokens with
  | nil =>
    rw [chain]
    exact yields_pure
  | cons token tokens =>
    have absent : operator? token.kind = none := by simpa using stops
    rw [chain, absent]
    exact yields_pure

theorem chain_yields {operator? : Kind → Option BinaryOp} {operand : Reader} {context : Context}
    {left expr : Expr} {tokens rest : List Token} :
    (chain operator? operand context left tokens).Yields expr rest ↔
      Chained operator? operand context left tokens expr rest := by
  constructor
  · intro yields
    induction size : tokens.length using Nat.strongRecOn generalizing left tokens with
    | ind size ih =>
      cases tokens with
      | nil =>
        obtain ⟨rfl, rfl⟩ := (chain_yields_stop (by simp)).1 yields
        exact .stop (by simp)
      | cons token tokens =>
        cases found : operator? token.kind with
        | none =>
          obtain ⟨rfl, rfl⟩ := (chain_yields_stop (by simp [found])).1 yields
          exact .stop (by simp [found])
        | some op =>
          obtain ⟨right, middle, taken, more⟩ := (chain_yields_step found).1 yields
          have ⟨shorter, _⟩ := taken
          refine .step found taken (ih middle.length ?_ more rfl)
          rw [← size]
          exact Nat.lt_succ_of_lt shorter
  · intro chained
    induction chained with
    | stop stops => exact (chain_yields_stop stops).2 ⟨rfl, rfl⟩
    | step found taken _ ih => exact (chain_yields_step found).2 ⟨_, _, taken, ih⟩

theorem leftAssociative_yields {operator? : Kind → Option BinaryOp} {operand : Reader}
    {context : Context} {expr : Expr} {tokens rest : List Token} :
    (leftAssociative operator? operand context tokens).Yields expr rest ↔
      ∃ first middle, (operand context tokens).Yields first middle ∧
        Chained operator? operand context first middle expr rest := by
  apply yields_bind_iff
  intro first middle shorter
  exact yields_widen.trans chain_yields

theorem power_yields {inner : Inner} {context : Context} {expr : Expr}
    {tokens rest : List Token} :
    (power inner context tokens).Yields expr rest ↔
      ∃ base middle, (primary inner context tokens).Yields base middle ∧
        ((NotNext (· = .caret) middle ∧ expr = base ∧ rest = middle) ∨
          ∃ caret after exponent, middle = caret :: after ∧ caret.kind = .caret ∧
            (inner .signed context after).Yields exponent rest ∧
            expr = .binary .power base exponent) := by
  apply yields_bind_iff
  intro base middle shorter
  cases middle with
  | nil => simp
  | cons caret after =>
    by_cases raised : caret.kind = .caret
    · simp only [raised, ↓reduceIte, notNext_cons, not_true_eq_false, false_and, false_or]
      rw [yields_bind_iff fun exponent last =>
        rest = last ∧ expr = .binary .power base exponent]
      · constructor
        · rintro ⟨exponent, last, taken, rfl, rfl⟩
          exact ⟨caret, after, exponent, rfl, raised, taken, rfl⟩
        · rintro ⟨_, _, exponent, same, -, taken, rfl⟩
          cases same
          exact ⟨exponent, rest, taken, rfl, rfl⟩
      · intro exponent last _
        simp [and_comm]
    · simp only [raised, ↓reduceIte, notNext_cons, not_false_eq_true, true_and, yields_pure]
      constructor
      · exact Or.inl
      · rintro (same | ⟨_, _, _, same, kind, -⟩)
        · exact same
        · cases same
          exact absurd kind raised

/-- A sign in front of an operand that is one level deeper. -/
private theorem prefixed_yields {inner : Reader} {context : Context} {expr : Expr}
    {tokens rest : List Token} {wider : Nat} {le : tokens.length ≤ wider} {build : Expr → Expr} :
    (inner context tokens >>= fun operand => pure ((operand.map build).widen le)).Yields expr rest ↔
      ∃ operand, (inner context tokens).Yields operand rest ∧ expr = build operand := by
  rw [yields_bind_iff fun operand last => rest = last ∧ expr = build operand]
  · constructor
    · rintro ⟨operand, last, taken, rfl, rfl⟩
      exact ⟨operand, taken, rfl⟩
    · rintro ⟨operand, taken, rfl⟩
      exact ⟨operand, rest, taken, rfl, rfl⟩
  · intro operand last _
    simp [Step.widen, Step.map, and_comm]

theorem signed_minus {inner : Inner} {context : Context} {expr : Expr} {token : Token}
    {tokens rest : List Token} (kind : token.kind = .minus) :
    (signed inner context (token :: tokens)).Yields expr rest ↔
      ∃ operand, (inner .signed context tokens).Yields operand rest ∧ expr = .negate operand := by
  simp only [signed, kind, ↓reduceIte]
  exact prefixed_yields

theorem signed_plus {inner : Inner} {context : Context} {expr : Expr} {token : Token}
    {tokens rest : List Token} (kind : token.kind = .plus) :
    (signed inner context (token :: tokens)).Yields expr rest ↔
      (inner .signed context tokens).Yields expr rest := by
  simp only [signed, kind, reduceCtorEq, ↓reduceIte]
  exact yields_widen

theorem signed_unsigned {inner : Inner} {context : Context} {tokens : List Token}
    (unsigned : NotNext (fun kind => kind = .minus ∨ kind = .plus) tokens) :
    signed inner context tokens = power inner context tokens := by
  cases tokens with
  | nil => rfl
  | cons token tokens =>
    obtain ⟨minus, plus⟩ := not_or.1 (notNext_cons.1 unsigned)
    simp only [signed, minus, plus, ↓reduceIte]

theorem negation_not {inner : Inner} {context : Context} {expr : Expr} {token : Token}
    {tokens rest : List Token} (kind : token.kind = .keyword .notWord) :
    (negation inner context (token :: tokens)).Yields expr rest ↔
      ∃ operand, (inner .negation context tokens).Yields operand rest ∧ expr = .not operand := by
  simp only [negation, kind, ↓reduceIte]
  exact prefixed_yields

theorem negation_positive {inner : Inner} {context : Context} {tokens : List Token}
    (positive : NotNext (· = .keyword .notWord) tokens) :
    negation inner context tokens = comparison inner context tokens := by
  cases tokens with
  | nil => rfl
  | cons token tokens =>
    have kind := notNext_cons.1 positive
    simp only [negation, kind, ↓reduceIte]

theorem comparison_yields {inner : Inner} {context : Context} {expr : Expr}
    {tokens rest : List Token} :
    (comparison inner context tokens).Yields expr rest ↔
      ∃ left middle, (sum inner context tokens).Yields left middle ∧
        ((NotNext (fun kind => (comparisonOperator? kind).isSome) middle ∧ expr = left ∧
            rest = middle) ∨
          ∃ sign after op right, middle = sign :: after ∧
            comparisonOperator? sign.kind = some op ∧
            (sum inner context after).Yields right rest ∧ expr = .binary op left right) := by
  apply yields_bind_iff
  intro left middle shorter
  cases middle with
  | nil => simp
  | cons sign after =>
    cases found : comparisonOperator? sign.kind with
    | none =>
      simp only [found, notNext_cons, Option.isSome_none, Bool.false_eq_true, not_false_eq_true,
        true_and, yields_pure]
      constructor
      · exact Or.inl
      · rintro (same | ⟨_, _, _, _, same, other, -⟩)
        · exact same
        · cases same
          rw [found] at other
          cases other
    | some op =>
      simp only [found, notNext_cons, Option.isSome_some, not_true_eq_false, false_and, false_or]
      rw [yields_bind_iff fun right last => rest = last ∧ expr = .binary op left right]
      · constructor
        · rintro ⟨right, last, taken, rfl, rfl⟩
          exact ⟨sign, after, op, right, rfl, found, taken, rfl⟩
        · rintro ⟨_, _, _, right, same, other, taken, rfl⟩
          cases same
          rw [found] at other
          cases other
          exact ⟨right, rest, taken, rfl, rfl⟩
      · intro right last _
        simp [and_comm]

theorem expect_eq_ok {context : Context} {wanted : Kind} {tokens rest : List Token} :
    expect context wanted tokens = .ok rest ↔
      ∃ token, tokens = token :: rest ∧ token.kind = wanted := by
  cases tokens with
  | nil => simp [expect]
  | cons token tokens =>
    rw [expect]
    split
    · rename_i same
      simp only [Except.ok.injEq, List.cons.injEq]
      constructor
      · rintro rfl
        exact ⟨token, ⟨rfl, rfl⟩, same⟩
      · rintro ⟨_, ⟨-, rfl⟩, -⟩
        rfl
    · rename_i other
      simp only [reduceCtorEq, List.cons.injEq, false_iff]
      rintro ⟨_, ⟨rfl, -⟩, same⟩
      exact other same

/-- The expressions that a list with commas takes. -/
inductive Listed (expression : Reader) (context : Context) :
    List Token → List Expr → List Token → Prop where
  | last {expr : Expr} {tokens rest : List Token}
      (taken : (expression context tokens).Yields expr rest) (stops : NotNext (· = .comma) rest) :
      Listed expression context tokens [expr] rest
  | more {expr : Expr} {exprs : List Expr} {comma : Token} {tokens middle rest : List Token}
      (taken : (expression context tokens).Yields expr (comma :: middle))
      (kind : comma.kind = .comma) (others : Listed expression context middle exprs rest) :
      Listed expression context tokens (expr :: exprs) rest

private theorem isComma_iff {token : Token} : token.isComma = true ↔ token.kind = .comma := by
  simp [Token.isComma]

private theorem items_eq_ok_last {expression : Reader} {context : Context} {expr : Expr}
    {tokens rest : List Token} {found : Items tokens.length}
    (taken : (expression context tokens).Yields expr rest) (stops : NotNext (· = .comma) rest) :
    (items expression context tokens).result = .ok found ↔
      found.exprs = [expr] ∧ found.rest = rest := by
  obtain ⟨shorter, success⟩ := taken
  obtain ⟨exprs, left, fewer⟩ := found
  rw [items, result_bind, success]
  cases rest with
  | nil => simp [bind, Except.bind, eq_comm]
  | cons token rest =>
    have other : ¬ token.isComma = true := fun comma => notNext_cons.1 stops (isComma_iff.1 comma)
    simp [bind, Except.bind, other, eq_comm]

private theorem items_eq_ok_more {expression : Reader} {context : Context} {expr : Expr}
    {comma : Token} {tokens rest : List Token} {found : Items tokens.length}
    (taken : (expression context tokens).Yields expr (comma :: rest))
    (kind : comma.kind = .comma) :
    (items expression context tokens).result = .ok found ↔
      ∃ more, (items expression context rest).result = .ok more ∧
        found.exprs = expr :: more.exprs ∧ found.rest = more.rest := by
  obtain ⟨shorter, success⟩ := taken
  obtain ⟨exprs, left, fewer⟩ := found
  rw [items, result_bind, success]
  simp only [bind, Except.bind, isComma_iff.2 kind, ↓reduceIte]
  cases (items expression context rest).result <;> simp [eq_comm]

theorem items_eq_ok {expression : Reader} {context : Context} {exprs : List Expr}
    {tokens rest : List Token} :
    (∃ shorter, (items expression context tokens).result = .ok ⟨exprs, rest, shorter⟩) ↔
      Listed expression context tokens exprs rest := by
  constructor
  · intro success
    induction size : tokens.length using Nat.strongRecOn generalizing exprs tokens with
    | ind size ih =>
      obtain ⟨shorter, success⟩ := success
      have start := success
      rw [items, result_bind_eq_ok] at start
      obtain ⟨⟨expr, middle, fewer⟩, taken, -⟩ := start
      have taken : (expression context tokens).Yields expr middle := ⟨fewer, taken⟩
      by_cases stops : NotNext (· = .comma) middle
      · obtain ⟨rfl, rfl⟩ := (items_eq_ok_last taken stops).1 success
        exact .last taken stops
      · cases middle with
        | nil => exact absurd notNext_nil stops
        | cons comma middle =>
          have kind : comma.kind = .comma := by simpa using stops
          obtain ⟨⟨others, left, less⟩, found, all, same⟩ :=
            (items_eq_ok_more taken kind).1 success
          obtain rfl : exprs = expr :: others := all
          obtain rfl : rest = left := same
          refine .more taken kind (ih middle.length ?_ ⟨less, found⟩ rfl)
          rw [← size]
          exact Nat.lt_of_succ_lt fewer
  · intro listed
    induction listed with
    | last taken stops =>
      have ⟨shorter, _⟩ := taken
      exact ⟨shorter, (items_eq_ok_last taken stops).2 ⟨rfl, rfl⟩⟩
    | more taken kind _ ih =>
      obtain ⟨less, found⟩ := ih
      have ⟨shorter, _⟩ := taken
      exact ⟨Nat.lt_trans less (Nat.lt_of_succ_lt shorter),
        (items_eq_ok_more taken kind).2 ⟨_, found, rfl, rfl⟩⟩

theorem itemsUpTo_eq_ok {closing : Kind} {expression : Reader} {context : Context}
    {exprs : List Expr} {tokens rest : List Token} :
    (∃ shorter, (itemsUpTo closing expression context tokens).result =
        .ok ⟨exprs, rest, shorter⟩) ↔
      ∃ last, Listed expression context tokens exprs (last :: rest) ∧ last.kind = closing := by
  constructor
  · rintro ⟨shorter, success⟩
    rw [itemsUpTo, result_bind_eq_ok] at success
    obtain ⟨⟨found, middle, fewer⟩, listed, success⟩ := success
    dsimp only at success
    split at success
    · cases success
    · rename_i left closed
      cases success
      obtain ⟨last, rfl, kind⟩ := expect_eq_ok.1 closed
      exact ⟨last, items_eq_ok.1 ⟨fewer, listed⟩, kind⟩
  · rintro ⟨last, listed, kind⟩
    obtain ⟨fewer, success⟩ := items_eq_ok.2 listed
    have closed : expect context closing (last :: rest) = .ok rest :=
      expect_eq_ok.2 ⟨last, rfl, kind⟩
    refine ⟨Nat.lt_of_succ_lt fewer, ?_⟩
    rw [itemsUpTo, result_bind, success]
    simp only [bind, Except.bind]
    split
    · rename_i fault failed
      rw [closed] at failed
      cases failed
    · rename_i left found
      rw [closed] at found
      cases found
      rfl

/-- What brackets make of the expressions between them. -/
def grouped : List Expr → Expr
  | [expr] => expr
  | exprs => .tuple exprs

theorem group_yields {inner : Inner} {context : Context} {expr : Expr}
    {tokens rest : List Token} :
    (group inner context tokens).Yields expr rest ↔
      ∃ exprs last, Listed (inner .expression) context tokens exprs (last :: rest) ∧
        last.kind = .closeParen ∧ expr = grouped exprs := by
  rw [group, yields_bind]
  constructor
  · rintro ⟨⟨exprs, left, fewer⟩, success, done⟩
    obtain ⟨last, listed, kind⟩ := itemsUpTo_eq_ok.1 ⟨fewer, success⟩
    have same : expr = grouped exprs ∧ rest = left := by
      rcases exprs with _ | ⟨first, _ | ⟨second, more⟩⟩ <;> simpa [grouped] using done
    obtain ⟨rfl, rfl⟩ := same
    exact ⟨exprs, last, listed, kind, rfl⟩
  · rintro ⟨exprs, last, listed, kind, rfl⟩
    obtain ⟨fewer, success⟩ := itemsUpTo_eq_ok.2 ⟨last, listed, kind⟩
    refine ⟨_, success, ?_⟩
    rcases exprs with _ | ⟨first, _ | ⟨second, more⟩⟩ <;> simp [grouped]

private theorem itemsUpTo_list {inner : Inner} {context : Context} {expr : Expr}
    {tokens rest : List Token} :
    (itemsUpTo .closeBracket (inner .expression) context tokens >>= fun found =>
        pure (⟨.list found.exprs, found.rest, found.shorter⟩ : Step tokens.length)).Yields
          expr rest ↔
      ∃ exprs last, Listed (inner .expression) context tokens exprs (last :: rest) ∧
        last.kind = .closeBracket ∧ expr = .list exprs := by
  rw [yields_bind]
  constructor
  · rintro ⟨⟨exprs, left, fewer⟩, success, done⟩
    obtain ⟨last, listed, kind⟩ := itemsUpTo_eq_ok.1 ⟨fewer, success⟩
    obtain ⟨rfl, rfl⟩ := yields_pure.1 done
    exact ⟨exprs, last, listed, kind, rfl⟩
  · rintro ⟨exprs, last, listed, kind, rfl⟩
    obtain ⟨fewer, success⟩ := itemsUpTo_eq_ok.2 ⟨last, listed, kind⟩
    exact ⟨_, success, yields_pure.2 ⟨rfl, rfl⟩⟩

theorem listLiteral_yields {inner : Inner} {context : Context} {expr : Expr}
    {tokens rest : List Token} :
    (listLiteral inner context tokens).Yields expr rest ↔
      (∃ last, tokens = last :: rest ∧ last.kind = .closeBracket ∧ expr = .list []) ∨
        (NotNext (· = .closeBracket) tokens ∧
          ∃ exprs last, Listed (inner .expression) context tokens exprs (last :: rest) ∧
            last.kind = .closeBracket ∧ expr = .list exprs) := by
  cases tokens with
  | nil =>
    rw [listLiteral, itemsUpTo_list]
    simp
  | cons token tokens =>
    by_cases closes : token.kind = .closeBracket
    · simp only [listLiteral, closes, ↓reduceIte, yields_pure, notNext_cons, not_true_eq_false,
        false_and, or_false]
      constructor
      · rintro ⟨rfl, rfl⟩
        exact ⟨token, rfl, closes, rfl⟩
      · rintro ⟨last, same, -, rfl⟩
        cases same
        exact ⟨rfl, rfl⟩
    · simp only [listLiteral, closes, ↓reduceIte, itemsUpTo_list, notNext_cons, not_false_eq_true,
        true_and]
      constructor
      · exact .inr
      · rintro (⟨last, same, kind, -⟩ | listed)
        · cases same
          exact absurd kind closes
        · exact listed

/-- The names behind the head of a reference are the rest of a dotted reference. -/
theorem referenceNames?_of_members {stop : Nat} {tokens : List Token}
    {tail : Members (tokens.length + 1)} (found : members stop tokens = .ok tail) {head : Token}
    {name : String} (kind : head.kind = .ident name) :
    ∃ used, tokens = used ++ tail.rest ∧
      referenceNames? (head :: used) = some (name :: tail.names) := by
  fun_induction members stop tokens generalizing head name with
  | case1 stop =>
    cases found
    exact ⟨[], rfl, by simp [referenceNames?, kind, Kind.name?]⟩
  | case2 stop mark isMark => cases found
  | case3 stop mark notMark =>
    cases found
    exact ⟨[], rfl, by simp [referenceNames?, kind, Kind.name?]⟩
  | case4 stop mark token rest isMark unnamed => cases found
  | case5 stop mark token rest isMark member named ih =>
    simp only [bind, Except.bind] at found
    split at found
    · cases found
    · rename_i more success
      cases found
      have kind' : token.kind = .ident member := by
        cases same : token.kind <;> simp_all [Kind.name?]
      obtain ⟨used, whole, names⟩ := ih success kind'
      refine ⟨mark :: token :: used, by simp [whole], ?_⟩
      simp [referenceNames?, isMark, kind, Kind.name?, names]
  | case6 stop mark token rest notMark =>
    cases found
    exact ⟨[], rfl, by simp [referenceNames?, kind, Kind.name?]⟩

/-- Without a dot behind it, a name has no members. -/
theorem members_of_notNext {stop : Nat} {tokens : List Token}
    (stops : NotNext (fun kind => kind.isMemberMark) tokens) :
    ∃ shorter, members stop tokens = .ok ⟨[], stop, tokens, shorter⟩ := by
  rcases tokens with _ | ⟨mark, _ | ⟨token, rest⟩⟩
  · exact ⟨by simp, rfl⟩
  · have notMark := notNext_cons.1 stops
    exact ⟨by simp, by rw [members, if_neg notMark]⟩
  · have notMark := notNext_cons.1 stops
    exact ⟨by simp, by rw [members, if_neg notMark]⟩

theorem nameValue_yields {context : Context} {head : Token} {name : String} {expr : Expr}
    {tokens rest : List Token} :
    (nameValue context head name tokens).Yields expr rest ↔
      (literal? name = some expr ∧ rest = tokens) ∨
        (literal? name = none ∧ ∃ tail path, members head.stop tokens = .ok tail ∧
          context.scope.value (name :: tail.names)
            (Text.slice context.source head.start tail.stop) = .ok path ∧
          expr = .reference (.whole path) ∧ rest = tail.rest) := by
  rw [nameValue]
  cases known : literal? name with
  | some value =>
    simp [eq_comm]
  | none =>
    simp only [yields_bind, yields_pure, result_liftM]
    simp

theorem named_value {inner : Inner} {context : Context} {head : Token} {name : String}
    {tokens : List Token} (stops : NotNext (· = .openParen) tokens) :
    named inner context head name tokens = nameValue context head name tokens := by
  cases tokens with
  | nil => rfl
  | cons opening after =>
    have other := notNext_cons.1 stops
    simp only [named, other, ↓reduceIte]

theorem enclosed_eq_ok {opening : Token} {tokens : List Token} {parts : List Token × List Token} :
    enclosed opening tokens = .ok parts ↔ upToClose 0 tokens = some parts := by
  rw [enclosed]
  cases upToClose 0 tokens <;> simp

theorem named_call {inner : Inner} {context : Context} {head opening : Token} {name : String}
    {expr : Expr} {tokens rest : List Token} (kind : opening.kind = .openParen) :
    (named inner context head name (opening :: tokens)).Yields expr rest ↔
      ∃ arguments, upToClose 0 tokens = some (arguments, rest) ∧
        (Call.read (readWhole inner context.source) context.source context.scope name
          arguments).result = .ok expr := by
  simp only [named, kind, ↓reduceIte]
  split
  · rename_i fault failed
    have unclosed : ∀ parts, upToClose 0 tokens ≠ some parts := by
      intro parts closed
      rw [enclosed_eq_ok.2 closed] at failed
      cases failed
    simp [unclosed]
  · rename_i arguments tail inside
    have closed := enclosed_eq_ok.1 inside
    rw [yields_bind]
    constructor
    · rintro ⟨value, success, done⟩
      obtain ⟨rfl, rfl⟩ := yields_pure.1 done
      exact ⟨arguments, closed, success⟩
    · rintro ⟨others, same, success⟩
      rw [closed] at same
      cases same
      exact ⟨expr, success, yields_pure.2 ⟨rfl, rfl⟩⟩

theorem branches_yields {inner : Inner} {context : Context} {condition expr : Expr}
    {tokens rest : List Token} :
    (branches inner context condition tokens).Yields expr rest ↔
      ∃ yes word after no, (inner .expression context tokens).Yields yes (word :: after) ∧
        word.kind = .keyword .elseWord ∧ (inner .expression context after).Yields no rest ∧
        expr = .conditional condition yes no := by
  rw [branches, yields_bind_iff fun yes middle => ∃ word after no, middle = word :: after ∧
    word.kind = .keyword .elseWord ∧ (inner .expression context after).Yields no rest ∧
    expr = .conditional condition yes no]
  · constructor
    · rintro ⟨yes, _, taken, word, after, no, rfl, kind, other, rfl⟩
      exact ⟨yes, word, after, no, taken, kind, other, rfl⟩
    · rintro ⟨yes, word, after, no, taken, kind, other, rfl⟩
      exact ⟨yes, _, taken, word, after, no, rfl, kind, other, rfl⟩
  · intro yes middle shorter
    cases middle with
    | nil => simp
    | cons word after =>
      by_cases kind : word.kind = .keyword .elseWord
      · simp only [kind, ↓reduceIte]
        rw [yields_bind_iff fun no last => rest = last ∧ expr = .conditional condition yes no]
        · constructor
          · rintro ⟨no, last, taken, rfl, rfl⟩
            exact ⟨word, after, no, rfl, kind, taken, rfl⟩
          · rintro ⟨_, _, no, same, -, taken, rfl⟩
            cases same
            exact ⟨no, rest, taken, rfl, rfl⟩
        · intro no last _
          simp [and_comm]
      · simp only [kind, ↓reduceIte, yields_fail, false_iff]
        rintro ⟨_, _, _, same, other, -⟩
        cases same
        exact kind other

private theorem conditional_yields_cases {inner : Inner} {context : Context} {keyword : Token}
    {expr : Expr} {tokens rest : List Token}
    (yields : (conditional inner context keyword tokens).Yields expr rest) :
    ∃ opening after inside tail, tokens = opening :: after ∧ opening.kind = .openParen ∧
      upToClose 0 after = some (inside, tail) ∧
      ((NotNext (· = .keyword .thenWord) tail ∧ rest = tail ∧
          (Call.read (readWhole inner context.source) context.source context.scope
            "IF" inside).result = .ok expr) ∨
        ∃ word more test, tail = word :: more ∧ word.kind = .keyword .thenWord ∧
          (readWhole inner context.source context.scope inside).result = .ok test ∧
          (branches inner context test more).Yields expr rest) := by
  cases tokens with
  | nil => simp [conditional] at yields
  | cons opening after =>
    by_cases kind : opening.kind = .openParen
    · simp only [conditional, kind, ↓reduceIte] at yields
      split at yields
      · simp at yields
      · rename_i inside tail found
        refine ⟨opening, after, inside, tail, rfl, kind, enclosed_eq_ok.1 found, ?_⟩
        split at yields
        · obtain ⟨value, success, done⟩ := yields_bind.1 yields
          obtain ⟨rfl, rfl⟩ := yields_pure.1 done
          exact .inl ⟨notNext_nil, rfl, success⟩
        · rename_i word more _ _
          split at yields
          · rename_i isThen
            split at yields
            · simp at yields
            · obtain ⟨test, success, done⟩ := yields_bind.1 yields
              exact .inr ⟨word, more, test, rfl, isThen, success, yields_widen.1 done⟩
          · rename_i other
            obtain ⟨value, success, done⟩ := yields_bind.1 yields
            obtain ⟨rfl, rfl⟩ := yields_pure.1 done
            exact .inl ⟨notNext_cons.2 other, rfl, success⟩
    · simp [conditional, kind] at yields

theorem conditional_yields {inner : Inner} {context : Context} {keyword : Token} {expr : Expr}
    {tokens rest : List Token} :
    (conditional inner context keyword tokens).Yields expr rest ↔
      ∃ opening after inside tail, tokens = opening :: after ∧ opening.kind = .openParen ∧
        upToClose 0 after = some (inside, tail) ∧
        ((NotNext (· = .keyword .thenWord) tail ∧ rest = tail ∧
            (Call.read (readWhole inner context.source) context.source context.scope
              "IF" inside).result = .ok expr) ∨
          ∃ word more test, tail = word :: more ∧ word.kind = .keyword .thenWord ∧
            (readWhole inner context.source context.scope inside).result = .ok test ∧
            (branches inner context test more).Yields expr rest) := by
  constructor
  · exact conditional_yields_cases
  · rintro ⟨opening, after, inside, tail, rfl, kind, closed, ended⟩
    simp only [conditional, kind, ↓reduceIte]
    split
    · rename_i fault failed
      rw [enclosed_eq_ok.2 closed] at failed
      cases failed
    · rename_i found
      rw [enclosed_eq_ok.2 closed] at found
      cases found
      rcases ended with ⟨stops, rfl, success⟩ | ⟨word, more, test, rfl, isThen, success, branch⟩
      · split
        · exact yields_bind.2 ⟨expr, success, yields_pure.2 ⟨rfl, rfl⟩⟩
        · rw [if_neg (notNext_cons.1 stops)]
          exact yields_bind.2 ⟨expr, success, yields_pure.2 ⟨rfl, rfl⟩⟩
      · have nonempty := (readWhole_eq_ok.1 success).1
        simp only [isThen, nonempty, ↓reduceIte]
        exact yields_bind.2 ⟨test, success, yields_widen.2 branch⟩

section Primary

variable {inner : Inner} {context : Context} {expr : Expr} {token : Token}
  {tokens rest : List Token}

theorem primary_nil : ¬ (primary inner context []).Yields expr rest := by
  simp [primary]

theorem primary_number {digits : String} (kind : token.kind = .number digits) :
    (primary inner context (token :: tokens)).Yields expr rest ↔
      expr = .number digits ∧ rest = tokens := by
  simp [primary, kind]

theorem primary_string {literal : String} (kind : token.kind = .string literal) :
    (primary inner context (token :: tokens)).Yields expr rest ↔
      expr = .text literal ∧ rest = tokens := by
  simp [primary, kind]

theorem primary_openParen (kind : token.kind = .openParen) :
    (primary inner context (token :: tokens)).Yields expr rest ↔
      (group inner context tokens).Yields expr rest := by
  simp only [primary, kind]
  exact yields_widen

theorem primary_openBracket (kind : token.kind = .openBracket) :
    (primary inner context (token :: tokens)).Yields expr rest ↔
      (listLiteral inner context tokens).Yields expr rest := by
  simp only [primary, kind]
  exact yields_widen

theorem primary_if (kind : token.kind = .keyword .ifWord) :
    (primary inner context (token :: tokens)).Yields expr rest ↔
      (conditional inner context token tokens).Yields expr rest := by
  simp only [primary, kind]
  exact yields_widen

theorem primary_ident {name : String} (kind : token.kind = .ident name) :
    (primary inner context (token :: tokens)).Yields expr rest ↔
      (named inner context token name tokens).Yields expr rest := by
  simp only [primary, kind]

/-- The kinds of tokens that an operand can start with. -/
def startsPrimary : Kind → Bool
  | .number _ => true
  | .string _ => true
  | .openParen => true
  | .openBracket => true
  | .keyword .ifWord => true
  | .ident _ => true
  | _ => false

theorem primary_starts (yields : (primary inner context (token :: tokens)).Yields expr rest) :
    startsPrimary token.kind = true := by
  simp only [primary] at yields
  split at yields <;> simp_all [startsPrimary]

end Primary

theorem readerAt_zero {entry : Entry} {context : Context} {expr : Expr}
    {tokens rest : List Token} : ¬ (readerAt 0 entry context tokens).Yields expr rest := by
  simp [readerAt, tooDeep]

end Grammar

end Formulary
