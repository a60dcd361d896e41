import Mathlib
import Formulary.Proofs.Arguments
import Formulary.Proofs.Operators
import Formulary.Proofs.Reading

set_option autoImplicit false

namespace Formulary.Operators

namespace Tree

/-- The deepest nesting in an expression. Brackets, NOT, a sign and an exponent nest. -/
def nesting : Tree → Nat
  | number _ => 0
  | text _ => 0
  | name _ => 0
  | group inside => inside.nesting + 1
  | not operand => operand.nesting + 1
  | minus operand => operand.nesting + 1
  | plus operand => operand.nesting + 1
  | binary .power left right => max left.nesting (right.nesting + 1)
  | binary _ left right => max left.nesting right.nesting
  | applied _ left right => max left.nesting right.nesting + 1

theorem nesting_binary {op : BinaryOp} (other : op ≠ .power) (left right : Tree) :
    (binary op left right).nesting = max left.nesting right.nesting := by
  cases op with
  | power => exact absurd rfl other
  | _ => rfl

/-- What the readers make of an expression of the entity. -/
def expr : Tree → Expr
  | number digits => .number digits
  | text literal => .text literal
  | name spelled =>
    (Grammar.literal? spelled).getD (.reference (.whole (Scope.entity.resolve [spelled])))
  | group inside => inside.expr
  | not operand => .not operand.expr
  | minus operand => .negate operand.expr
  | plus operand => operand.expr
  | binary op left right => .binary op left.expr right.expr
  | applied op left right =>
    .call (Signature.between (functionName op) (op.symbol "")) [left.expr, right.expr]

end Tree

theorem comparison?_ne_power {kind : Kind} {op : BinaryOp}
    (found : comparison? kind = some op) : op ≠ .power := by
  unfold comparison? at found
  split at found <;> cases found <;> decide

theorem Loop.operator?_ne_power {loop : Loop} {kind : Kind} {op : BinaryOp}
    (found : loop.operator? kind = some op) : op ≠ .power := by
  unfold Loop.operator? at found
  split at found <;> cases found <;> decide

/-- The reader of a level. -/
def Level.reader (inner : Inner) : Level → Reader
  | .loop .disjunction => Grammar.disjunction inner
  | .loop .conjunction => Grammar.conjunction inner
  | .negation => Grammar.negation inner
  | .comparison => Grammar.comparison inner
  | .loop .sum => Grammar.sum inner
  | .loop .product => Grammar.product inner
  | .signed => Grammar.signed inner
  | .power => Grammar.power inner
  | .primary => Grammar.primary inner

theorem comparisonOperator?_eq : Grammar.comparisonOperator? = comparison? := by
  funext kind
  cases kind with
  | keyword word => cases word <;> rfl
  | _ => rfl

theorem orOperator?_eq : Grammar.orOperator? = Loop.disjunction.operator? := by
  funext kind
  cases kind with
  | keyword word => cases word <;> rfl
  | _ => rfl

theorem andOperator?_eq : Grammar.andOperator? = Loop.conjunction.operator? := by
  funext kind
  cases kind with
  | keyword word => cases word <;> rfl
  | _ => rfl

theorem sumOperator?_eq : Grammar.sumOperator? = Loop.sum.operator? := by
  funext kind
  cases kind <;> rfl

theorem productOperator?_eq : Grammar.productOperator? = Loop.product.operator? := by
  funext kind
  cases kind <;> rfl

theorem Level.reader_loop (inner : Inner) (loop : Loop) :
    (Level.loop loop).reader inner =
      Grammar.leftAssociative loop.operator? (loop.operand.reader inner) := by
  cases loop with
  | disjunction => exact congrArg (Grammar.leftAssociative · _) orOperator?_eq
  | conjunction => exact congrArg (Grammar.leftAssociative · _) andOperator?_eq
  | sum => exact congrArg (Grammar.leftAssociative · _) sumOperator?_eq
  | product => exact congrArg (Grammar.leftAssociative · _) productOperator?_eq

/-- The level that is read one nesting level deeper. -/
def entryLevel : Entry → Level
  | .expression => .loop .disjunction
  | .negation => .negation
  | .signed => .signed

theorem readerAt_yields {levels : Nat} {entry : Entry} {context : Context} {expr : Expr}
    {tokens rest : List Token} :
    (Grammar.readerAt levels entry context tokens).Yields expr rest ↔
      ∃ fewer, levels = fewer + 1 ∧
        ((entryLevel entry).reader (Grammar.readerAt fewer) context tokens).Yields expr rest := by
  cases levels with
  | zero => simp [Grammar.readerAt_zero]
  | succ fewer =>
    simp only [Nat.add_right_cancel_iff, exists_eq_left']
    cases entry <;> rfl

/-- The reader of the level takes these tokens as this tree, whatever stands behind them that does
not carry the expression on, if and only if there are as many levels of nesting left as the tree
has. -/
def ReadAs (level : Level) (tree : Tree) (tokens : List Token) : Prop :=
  ∀ ⦃levels : Nat⦄ ⦃context : Context⦄ ⦃rest left : List Token⦄ ⦃expr : Expr⦄,
    context.scope = .entity → level.Stops rest →
    ((level.reader (Grammar.readerAt levels) context (tokens ++ rest)).Yields expr left ↔
      tree.nesting ≤ levels ∧ expr = tree.expr ∧ left = rest)

/-- The loop of a level goes on from one tree to another. -/
def CarriedOn (loop : Loop) (start tree : Tree) (tokens : List Token) : Prop :=
  ∀ ⦃levels : Nat⦄ ⦃context : Context⦄ ⦃rest left : List Token⦄ ⦃expr : Expr⦄,
    context.scope = .entity → (Level.loop loop).Stops rest → start.nesting ≤ levels →
    (Grammar.Chained loop.operator? (loop.operand.reader (Grammar.readerAt levels)) context
        start.expr (tokens ++ rest) expr left ↔
      tree.nesting ≤ levels ∧ expr = tree.expr ∧ left = rest)

section Rules

variable {tokens before behind : List Token} {tree left right : Tree}

/-- One nesting level deeper. -/
theorem ReadAs.deeper (entry : Entry) (read : ReadAs (entryLevel entry) tree tokens)
    {levels : Nat} {context : Context} {rest : List Token} (atTop : context.scope = .entity)
    (stops : (entryLevel entry).Stops rest) (expr : Expr) (after : List Token) :
    (Grammar.readerAt levels entry context (tokens ++ rest)).Yields expr after ↔
      tree.nesting + 1 ≤ levels ∧ expr = tree.expr ∧ after = rest := by
  rw [readerAt_yields]
  constructor
  · rintro ⟨fewer, rfl, yields⟩
    obtain ⟨fits, rfl, rfl⟩ := (read atTop stops).1 yields
    exact ⟨Nat.succ_le_succ fits, rfl, rfl⟩
  · rintro ⟨fits, rfl, rfl⟩
    obtain ⟨fewer, rfl⟩ : ∃ fewer, levels = fewer + 1 := ⟨levels - 1, by omega⟩
    exact ⟨fewer, rfl, (read atTop stops).2 ⟨Nat.le_of_succ_le_succ fits, rfl, rfl⟩⟩

theorem readAs_atom {token : Token} (found : Tree.ofKind? token.kind = some tree) :
    ReadAs .primary tree [token] := by
  intro levels context rest left expr atTop stops
  change (Grammar.primary _ context (token :: rest)).Yields expr left ↔ _
  cases kind : token.kind with
  | number digits =>
    rw [kind] at found
    cases found
    rw [Grammar.primary_number kind]
    simp [Tree.nesting, Tree.expr]
  | string literal =>
    rw [kind] at found
    cases found
    rw [Grammar.primary_string kind]
    simp [Tree.nesting, Tree.expr]
  | ident spelled =>
    rw [kind] at found
    cases found
    have notCalled : NotNext (· = .openParen) rest :=
      stops.notNext (fun _ => Level.carryRank?_openParen) (Nat.le_refl _)
    have notMember : NotNext (fun kind => kind.isMemberMark) rest :=
      stops.notNext (fun _ => Level.carryRank?_memberMark) (Nat.le_refl _)
    have alone : ∃ shorter, Grammar.members token.stop rest = .ok ⟨[], token.stop, rest, shorter⟩ :=
      Grammar.members_of_notNext notMember
    obtain ⟨shorter, alone⟩ := alone
    have resolved : ∀ text path, context.scope.value [spelled] text = .ok path ↔
        Scope.entity.resolve [spelled] = path := by
      intro text path
      rw [atTop, Scope.value, if_neg (by simp [Scope.inClause, Scope.entity])]
      exact ⟨Except.ok.inj, congrArg _⟩
    rw [Grammar.primary_ident kind, Grammar.named_value notCalled, Grammar.nameValue_yields, alone]
    cases known : Grammar.literal? spelled with
    | some value => simp [Tree.nesting, Tree.expr, known, eq_comm]
    | none => simp [Tree.nesting, Tree.expr, known, resolved]
  | _ =>
    rw [kind] at found
    cases found

theorem readAs_group {opening closing : Token} (opens : opening.kind = .openParen)
    (closes : closing.kind = .closeParen) (inside : ReadAs (.loop .disjunction) tree tokens) :
    ReadAs .primary (.group tree) (opening :: (tokens ++ [closing])) := by
  intro levels context rest left expr atTop stops
  have shape : opening :: (tokens ++ [closing]) ++ rest =
      opening :: (tokens ++ closing :: rest) := by simp
  rw [shape]
  change (Grammar.primary _ context _).Yields expr left ↔ _
  rw [Grammar.primary_openParen opens, Grammar.group_yields]
  have ends : (Level.loop .disjunction).Stops (closing :: rest) := Level.stops_closeParen closes
  have within := @ReadAs.deeper _ _ .expression inside levels _ _ atTop ends
  constructor
  · rintro ⟨exprs, last, listed, -, rfl⟩
    cases listed with
    | last taken _ =>
      obtain ⟨fits, rfl, same⟩ := (within _ _).1 taken
      cases same
      exact ⟨fits, rfl, rfl⟩
    | more taken comma _ =>
      obtain ⟨-, -, same⟩ := (within _ _).1 taken
      cases same
      rw [closes] at comma
      cases comma
  · rintro ⟨fits, rfl, rfl⟩
    refine ⟨[tree.expr], closing, ?_, closes, rfl⟩
    exact .last ((within _ _).2 ⟨fits, rfl, rfl⟩) (notNext_cons.2 (by rw [closes]; simp))

theorem readAs_base (operand : ReadAs .primary tree tokens) : ReadAs .power tree tokens := by
  intro levels context rest left expr atTop stops
  change (Grammar.power _ context _).Yields expr left ↔ _
  rw [Grammar.power_yields]
  have tight : Level.primary.Stops rest := stops.tighter (by decide)
  have ends : NotNext (· = .caret) rest :=
    stops.notNext (fun _ => Level.carryRank?_caret) (Nat.le_refl _)
  constructor
  · rintro ⟨base, middle, taken, ⟨-, rfl, rfl⟩ | ⟨caret, after, exponent, rfl, kind, -⟩⟩
    · exact (operand atTop tight).1 taken
    · obtain ⟨-, -, rfl⟩ := (operand atTop tight).1 taken
      exact absurd kind (notNext_cons.1 ends)
  · rintro ⟨fits, rfl, rfl⟩
    exact ⟨_, _, (operand atTop tight).2 ⟨fits, rfl, rfl⟩, .inl ⟨ends, rfl, rfl⟩⟩

theorem readAs_raised {caret : Token} (first : ReadAs .primary left before)
    (kind : caret.kind = .caret) (second : ReadAs .signed right behind) :
    ReadAs .power (.binary .power left right) (before ++ caret :: behind) := by
  intro levels context rest after expr atTop stops
  rw [List.append_assoc, List.cons_append]
  change (Grammar.power _ context _).Yields expr after ↔ _
  rw [Grammar.power_yields]
  have raises : Level.primary.Stops (caret :: (behind ++ rest)) :=
    Level.stops_cons (Level.carryRank?_caret kind) (by decide)
  have exponent := @ReadAs.deeper _ _ .signed second levels _ _ atTop stops.signed
  simp only [Tree.nesting, Nat.max_le]
  constructor
  · rintro ⟨base, middle, taken, ⟨ends, -, -⟩ | ⟨sign, others, power, rfl, -, risen, rfl⟩⟩
    · obtain ⟨-, -, rfl⟩ := (first atTop raises).1 taken
      exact absurd kind (notNext_cons.1 ends)
    · obtain ⟨shallow, rfl, same⟩ := (first atTop raises).1 taken
      cases same
      obtain ⟨fits, rfl, rfl⟩ := (exponent _ _).1 risen
      exact ⟨⟨shallow, fits⟩, rfl, rfl⟩
  · rintro ⟨⟨shallow, fits⟩, rfl, rfl⟩
    refine ⟨_, _, (first atTop raises).2 ⟨shallow, rfl, rfl⟩, .inr ?_⟩
    exact ⟨caret, _, _, rfl, kind, (exponent _ _).2 ⟨fits, rfl, rfl⟩, rfl⟩

theorem readAs_unsigned (starts : StartsAt Level.power.rank tokens)
    (operand : ReadAs .power tree tokens) : ReadAs .signed tree tokens := by
  intro levels context rest left expr atTop stops
  have unsigned : NotNext (fun kind => kind = .minus ∨ kind = .plus) (tokens ++ rest) :=
    (starts.append rest).notNext (by rintro _ (rfl | rfl) <;> rfl) (by decide)
  change (Grammar.signed _ context _).Yields expr left ↔ _
  rw [Grammar.signed_unsigned unsigned]
  exact operand atTop (stops.tighter (by decide))

theorem readAs_minus {sign : Token} (kind : sign.kind = .minus)
    (operand : ReadAs .signed tree tokens) : ReadAs .signed (.minus tree) (sign :: tokens) := by
  intro levels context rest left expr atTop stops
  change (Grammar.signed _ context (sign :: (tokens ++ rest))).Yields expr left ↔ _
  have deeper := @ReadAs.deeper _ _ .signed operand levels _ _ atTop stops
  rw [Grammar.signed_minus kind]
  constructor
  · rintro ⟨found, taken, rfl⟩
    obtain ⟨fits, rfl, rfl⟩ := (deeper _ _).1 taken
    exact ⟨fits, rfl, rfl⟩
  · rintro ⟨fits, rfl, rfl⟩
    exact ⟨_, (deeper _ _).2 ⟨fits, rfl, rfl⟩, rfl⟩

theorem readAs_plus {sign : Token} (kind : sign.kind = .plus)
    (operand : ReadAs .signed tree tokens) : ReadAs .signed (.plus tree) (sign :: tokens) := by
  intro levels context rest left expr atTop stops
  change (Grammar.signed _ context (sign :: (tokens ++ rest))).Yields expr left ↔ _
  rw [Grammar.signed_plus kind]
  exact ReadAs.deeper .signed operand atTop stops _ _

theorem readAs_alone (operand : ReadAs (.loop .sum) tree tokens) :
    ReadAs .comparison tree tokens := by
  intro levels context rest left expr atTop stops
  change (Grammar.comparison _ context _).Yields expr left ↔ _
  rw [Grammar.comparison_yields, comparisonOperator?_eq]
  have tight : (Level.loop .sum).Stops rest := stops.tighter (by decide)
  have ends : NotNext (fun kind => (comparison? kind).isSome) rest := by
    refine stops.notNext ?_ (Nat.le_refl _)
    intro kind compares
    obtain ⟨op, found⟩ := Option.isSome_iff_exists.1 compares
    exact Level.carryRank?_of_comparison? found
  constructor
  · rintro ⟨first, middle, taken, ⟨-, rfl, rfl⟩ | ⟨sign, after, op, right, rfl, found, -⟩⟩
    · exact (operand atTop tight).1 taken
    · obtain ⟨-, -, rfl⟩ := (operand atTop tight).1 taken
      exact absurd (Option.isSome_of_mem found) (notNext_cons.1 ends)
  · rintro ⟨fits, rfl, rfl⟩
    exact ⟨_, _, (operand atTop tight).2 ⟨fits, rfl, rfl⟩, .inl ⟨ends, rfl, rfl⟩⟩

theorem readAs_compared {sign : Token} {op : BinaryOp}
    (first : ReadAs (.loop .sum) left before)
    (found : comparison? sign.kind = some op)
    (second : ReadAs (.loop .sum) right behind) :
    ReadAs .comparison (.binary op left right) (before ++ sign :: behind) := by
  intro levels context rest after expr atTop stops
  rw [List.append_assoc, List.cons_append]
  change (Grammar.comparison _ context _).Yields expr after ↔ _
  rw [Grammar.comparison_yields, comparisonOperator?_eq]
  have compares : (Level.loop .sum).Stops (sign :: (behind ++ rest)) :=
    Level.stops_cons (Level.carryRank?_of_comparison? found) (by decide)
  have tight : (Level.loop .sum).Stops rest := stops.tighter (by decide)
  rw [Tree.nesting_binary (comparison?_ne_power found), Nat.max_le]
  constructor
  · rintro ⟨base, middle, taken, compared⟩
    rcases compared with ⟨ends, -, -⟩ | ⟨mark, others, other, value, rfl, known, risen, rfl⟩
    · obtain ⟨-, -, rfl⟩ := (first atTop compares).1 taken
      exact absurd (Option.isSome_of_mem found) (notNext_cons.1 ends)
    · obtain ⟨shallow, rfl, same⟩ := (first atTop compares).1 taken
      cases same
      rw [found] at known
      cases known
      obtain ⟨fits, rfl, rfl⟩ := (second atTop tight).1 risen
      exact ⟨⟨shallow, fits⟩, rfl, rfl⟩
  · rintro ⟨⟨shallow, fits⟩, rfl, rfl⟩
    refine ⟨_, _, (first atTop compares).2 ⟨shallow, rfl, rfl⟩, .inr ?_⟩
    exact ⟨sign, _, op, _, rfl, found, (second atTop tight).2 ⟨fits, rfl, rfl⟩, rfl⟩

theorem readAs_positive (starts : StartsAt Level.comparison.rank tokens)
    (operand : ReadAs .comparison tree tokens) : ReadAs .negation tree tokens := by
  intro levels context rest left expr atTop stops
  have positive : NotNext (· = .keyword .notWord) (tokens ++ rest) :=
    (starts.append rest).notNext (by rintro _ rfl; rfl) (by decide)
  change (Grammar.negation _ context _).Yields expr left ↔ _
  rw [Grammar.negation_positive positive]
  exact operand atTop (stops.tighter (by decide))

theorem readAs_not {word : Token} (kind : word.kind = .keyword .notWord)
    (operand : ReadAs .negation tree tokens) : ReadAs .negation (.not tree) (word :: tokens) := by
  intro levels context rest left expr atTop stops
  change (Grammar.negation _ context (word :: (tokens ++ rest))).Yields expr left ↔ _
  have deeper := @ReadAs.deeper _ _ .negation operand levels _ _ atTop stops
  rw [Grammar.negation_not kind]
  constructor
  · rintro ⟨found, taken, rfl⟩
    obtain ⟨fits, rfl, rfl⟩ := (deeper _ _).1 taken
    exact ⟨fits, rfl, rfl⟩
  · rintro ⟨fits, rfl, rfl⟩
    exact ⟨_, (deeper _ _).2 ⟨fits, rfl, rfl⟩, rfl⟩

theorem readAs_chain {loop : Loop} (first : ReadAs loop.operand left before)
    (others : CarriedOn loop left tree behind) (deeper : left.nesting ≤ tree.nesting)
    (follows : ∀ {rest}, (Level.loop loop).Stops rest → loop.operand.Stops (behind ++ rest)) :
    ReadAs (.loop loop) tree (before ++ behind) := by
  intro levels context rest after expr atTop stops
  rw [List.append_assoc, Level.reader_loop, Grammar.leftAssociative_yields]
  constructor
  · rintro ⟨start, middle, taken, chained⟩
    obtain ⟨shallow, rfl, rfl⟩ := (first atTop (follows stops)).1 taken
    exact (others atTop stops shallow).1 chained
  · rintro ⟨fits, rfl, rfl⟩
    have shallow := Nat.le_trans deeper fits
    exact ⟨_, _, (first atTop (follows stops)).2 ⟨shallow, rfl, rfl⟩,
      (others atTop stops shallow).2 ⟨fits, rfl, rfl⟩⟩

theorem carriedOn_done {loop : Loop} : CarriedOn loop tree tree [] := by
  intro levels context rest left expr atTop stops shallow
  have ends : NotNext (fun kind => (loop.operator? kind).isSome) rest := by
    refine stops.notNext ?_ (Nat.le_refl _)
    intro kind found
    obtain ⟨op, found⟩ := Option.isSome_iff_exists.1 found
    exact Level.carryRank?_of_operator? found
  constructor
  · intro chained
    cases chained with
    | stop _ => exact ⟨shallow, rfl, rfl⟩
    | step found _ _ => exact absurd (Option.isSome_of_mem found) (notNext_cons.1 ends)
  · rintro ⟨-, rfl, rfl⟩
    exact .stop ends

theorem carriedOn_step {loop : Loop} {token : Token} {op : BinaryOp}
    (found : loop.operator? token.kind = some op) (next : ReadAs loop.operand right before)
    (others : CarriedOn loop (.binary op left right) tree behind)
    (deeper : (Tree.binary op left right).nesting ≤ tree.nesting)
    (follows : ∀ {rest}, (Level.loop loop).Stops rest → loop.operand.Stops (behind ++ rest)) :
    CarriedOn loop left tree (token :: (before ++ behind)) := by
  intro levels context rest after expr atTop stops shallow
  have depth := Tree.nesting_binary (Loop.operator?_ne_power found) left right
  rw [List.cons_append, List.append_assoc]
  constructor
  · intro chained
    cases chained with
    | stop ends => exact absurd (Option.isSome_of_mem found) (notNext_cons.1 ends)
    | step known taken more =>
      rw [found] at known
      cases known
      obtain ⟨fits, rfl, rfl⟩ := (next atTop (follows stops)).1 taken
      exact (others atTop stops (by omega)).1 more
  · rintro ⟨fits, rfl, rfl⟩
    have taken := (next atTop (follows stops)).2 ⟨(by omega : right.nesting ≤ levels), rfl, rfl⟩
    exact .step found taken ((others atTop stops (by omega)).2 ⟨fits, rfl, rfl⟩)

end Rules

/-- A loop only ever nests deeper. -/
theorem Derives.nesting_le {calls : Bool} {loop : Loop} {left tree : Tree} {tokens : List Token}
    (derives : Derives calls (.rest loop left tree) tokens) : left.nesting ≤ tree.nesting := by
  generalize shape : Part.rest loop left tree = part at derives
  induction derives generalizing left with
  | done =>
    cases shape
    exact Nat.le_refl _
  | @step loop token op before behind start right tree found next others ihNext ihOthers =>
    cases shape
    have depth := Tree.nesting_binary (Loop.operator?_ne_power found) start right
    have later := ihOthers rfl
    omega
  | _ => cases shape

/-- The function of the table that an operator is called by. -/
def calledSignature (op : BinaryOp) : Signature :=
  Signature.between (functionName op) (op.symbol "")

theorem calledOperator?_eq_some {name : String} {op : BinaryOp}
    (called : calledOperator? name = some op) :
    op ∈ calledOperators ∧ name.toUpper = functionName op := by
  have same := List.find?_some called
  exact ⟨List.mem_of_find?_eq_some called, (beq_iff_eq.1 same).symm⟩

theorem lookup?_functionName : ∀ op ∈ calledOperators,
    Signature.lookup? (functionName op) = some (calledSignature op) := by
  decide_cbv

theorem functionName_notMem : ∀ op ∈ calledOperators,
    functionName op ≠ "SUM" ∧ Aggregation.names.contains (functionName op) = false := by
  decide

/-- An operand is not taken for a keyword: it would go on with a sign that no sum goes on with. -/
theorem keyword?_of_derives {calls : Bool} {tree : Tree} {tokens : List Token}
    (derives : Derives calls (.whole (.loop .sum) tree) tokens) : Call.keyword? tokens = none := by
  unfold Call.keyword?
  split
  · rename_i name start stop fromHere upTo value
    -- The name alone is a sum that ends at the sign, so no longer one starts with it.
    have product : Derives calls (.whole (.loop .product) (.name name))
        [⟨.ident name, start, stop⟩] := .single (.unsigned (.base (.atom rfl)))
    have sum : Derives calls (.whole (.loop .sum) (.name name)) [⟨.ident name, start, stop⟩] :=
      .single product
    have ends : (Level.loop .sum).Stops (⟨.equal, fromHere, upTo⟩ :: value) :=
      Level.stops_cons (Level.carryRank?_of_comparison? rfl) (by decide)
    obtain ⟨-, same, -⟩ := derives.partUnique sum (List.append_nil _) Level.stops_nil ends
    cases same
  · rfl

/-- The arguments of a call without keywords are read one by one. -/
theorem readAll_eq_ok {slice : SliceReader} {scope : Scope} {signature : Signature}
    {parts : List (List Token)} {exprs : List Expr}
    (plain : ∀ part ∈ parts, Call.keyword? part = none) :
    (Call.readAll slice scope signature parts).result = .ok exprs ↔
      List.Forall₂ (fun part expr => (slice scope part).result = .ok expr) parts exprs := by
  induction parts generalizing exprs with
  | nil =>
    rw [Call.readAll, Traced.result_pure, Except.ok.injEq, List.forall₂_nil_left_iff]
    exact eq_comm
  | cons part parts ih =>
    have first : Call.readPositional slice scope signature part = slice scope part := by
      rw [Call.readPositional, plain part (by simp)]
    simp only [Call.readAll, first, Traced.result_bind_eq_ok, Traced.result_pure, Except.ok.injEq,
      ih fun other member => plain other (by simp [member])]
    constructor
    · rintro ⟨expr, taken, more, others, rfl⟩
      exact .cons taken others
    · rintro (_ | ⟨taken, others⟩)
      exact ⟨_, taken, _, others, rfl⟩

/-- A call that the table gives to its arguments in their order. -/
theorem read_positional {slice : SliceReader} {source : List Char} {scope : Scope} {name : String}
    {signature : Signature} {tokens : List Token} {parts : List (List Token)} {expr : Expr}
    (known : Signature.lookup? name.toUpper = some signature)
    (shape : signature.shape = .positional)
    (table : name.toUpper ≠ "SUM" ∧ Aggregation.names.contains name.toUpper = false)
    (split : splitArguments tokens = .ok parts)
    (arity : signature.arity.accepts parts.length = true)
    (plain : ∀ part ∈ parts, Call.keyword? part = none) :
    (Call.read slice source scope name tokens).result = .ok expr ↔
      ∃ exprs, List.Forall₂ (fun part expr => (slice scope part).result = .ok expr) parts exprs ∧
        expr = .call signature exprs := by
  obtain ⟨notSum, notNamed⟩ := table
  rw [Call.read]
  simp only [known, Aggregation.isRelational, if_neg notSum, notNamed, Bool.false_eq_true,
    ↓reduceIte, split, Traced.result_bind_eq_ok, Traced.result_liftM, Except.ok.injEq,
    exists_eq_left', arity]
  rw [Call.readShape]
  · simp only [Traced.result_bind_eq_ok, readAll_eq_ok plain, Traced.result_pure, Except.ok.injEq]
    exact exists_congr fun exprs => and_congr_right fun _ => eq_comm
  · exact shape

/-- A call of an operator reads its two operands. -/
theorem read_called {slice : SliceReader} {source : List Char} {scope : Scope} {name : String}
    {op : BinaryOp} {first second : List Token} {comma : Token} {expr : Expr}
    (called : calledOperator? name = some op) (kind : comma.kind = .comma)
    (closedFirst : Closed false first) (closedSecond : Closed false second)
    (someFirst : first ≠ []) (someSecond : second ≠ [])
    (plainFirst : Call.keyword? first = none) (plainSecond : Call.keyword? second = none) :
    (Call.read slice source scope name (first ++ comma :: second)).result = .ok expr ↔
      ∃ left right, (slice scope first).result = .ok left ∧
        (slice scope second).result = .ok right ∧
        expr = .call (calledSignature op) [left, right] := by
  obtain ⟨member, upper⟩ := calledOperator?_eq_some called
  have known : Signature.lookup? name.toUpper = some (calledSignature op) := by
    rw [upper, lookup?_functionName op member]
  have split := splitArguments_pair closedFirst closedSecond someFirst someSecond kind
  rw [read_positional known rfl (upper ▸ functionName_notMem op member) split rfl
    (by simp [plainFirst, plainSecond])]
  constructor
  · rintro ⟨exprs, _ | ⟨takenFirst, _ | ⟨takenSecond, _ | _⟩⟩, rfl⟩
    exact ⟨_, _, takenFirst, takenSecond, rfl⟩
  · rintro ⟨left, right, takenFirst, takenSecond, rfl⟩
    exact ⟨_, .cons takenFirst (.cons takenSecond .nil), rfl⟩

theorem ReadAs.single {loop : Loop} {tree : Tree} {tokens : List Token}
    (operand : ReadAs loop.operand tree tokens) : ReadAs (.loop loop) tree tokens := by
  have tight := Nat.le_of_lt (Level.rank_operand loop)
  simpa using readAs_chain operand carriedOn_done (Nat.le_refl _) fun stops => stops.tighter tight

/-- An operand of a call is read as a whole expression. -/
theorem ReadAs.whole {tree : Tree} {tokens : List Token} (sum : ReadAs (.loop .sum) tree tokens)
    (starts : StartsAt (Level.loop .sum).rank tokens) {levels : Nat} {source : List Char}
    {expr : Expr} :
    (readWhole (Grammar.readerAt levels) source .entity tokens).result = .ok expr ↔
      tree.nesting + 1 ≤ levels ∧ expr = tree.expr := by
  have negation := readAs_positive (starts.looser (by decide)) (readAs_alone sum)
  have conjunction : ReadAs (.loop .conjunction) tree tokens := .single negation
  have disjunction : ReadAs (.loop .disjunction) tree tokens := .single conjunction
  have taken := @ReadAs.deeper _ _ .expression disjunction levels
    ⟨source, .entity, endOffset tokens⟩ [] rfl Level.stops_nil expr []
  rw [List.append_nil] at taken
  rw [readWhole_eq_ok, taken]
  simp [starts.ne_nil]

theorem readAs_applied {head opening comma closing : Token} {name : String} {op : BinaryOp}
    {left right : Tree} {before behind : List Token} {calls : Bool}
    (kind : head.kind = .ident name) (called : calledOperator? name = some op)
    (opens : opening.kind = .openParen) (separates : comma.kind = .comma)
    (closes : closing.kind = .closeParen)
    (first : Derives calls (.whole (.loop .sum) left) before)
    (second : Derives calls (.whole (.loop .sum) right) behind)
    (readFirst : ReadAs (.loop .sum) left before) (readSecond : ReadAs (.loop .sum) right behind) :
    ReadAs .primary (.applied op left right)
      (head :: opening :: (before ++ comma :: (behind ++ [closing]))) := by
  intro levels context rest after expr atTop stops
  have shape : head :: opening :: (before ++ comma :: (behind ++ [closing])) ++ rest =
      head :: opening :: ((before ++ comma :: behind) ++ closing :: rest) := by simp
  rw [shape]
  change (Grammar.primary _ context _).Yields expr after ↔ _
  have closed : Closed true (before ++ comma :: behind) :=
    first.closed.weaken.append (.token (by rw [separates]; rfl) second.closed.weaken)
  have enclosed : upToClose 0 ((before ++ comma :: behind) ++ closing :: rest) =
      some (before ++ comma :: behind, rest) := by
    rw [upToClose_closed closed]
    simp [upToClose, closes]
  have someFirst := first.startsAt.ne_nil
  have someSecond := second.startsAt.ne_nil
  rw [Grammar.primary_ident kind, Grammar.named_call opens, enclosed, atTop]
  simp only [Option.some.injEq, Prod.mk.injEq, Tree.nesting, Tree.expr]
  constructor
  · rintro ⟨arguments, ⟨rfl, rfl⟩, success⟩
    rw [read_called called separates first.closed second.closed someFirst someSecond
      (keyword?_of_derives first) (keyword?_of_derives second)] at success
    obtain ⟨one, two, takenFirst, takenSecond, rfl⟩ := success
    obtain ⟨shallow, rfl⟩ := (readFirst.whole first.startsAt).1 takenFirst
    obtain ⟨fits, rfl⟩ := (readSecond.whole second.startsAt).1 takenSecond
    exact ⟨by omega, rfl, rfl⟩
  · rintro ⟨fits, rfl, rfl⟩
    refine ⟨_, ⟨rfl, rfl⟩, ?_⟩
    rw [read_called called separates first.closed second.closed someFirst someSecond
      (keyword?_of_derives first) (keyword?_of_derives second)]
    exact ⟨_, _, (readFirst.whole first.startsAt).2 ⟨by omega, rfl⟩,
      (readSecond.whole second.startsAt).2 ⟨by omega, rfl⟩, rfl⟩

/-- The readers follow the grammar: each rule is read as it is written. -/
theorem Derives.readAs {calls : Bool} {part : Part} {tokens : List Token}
    (derives : Derives calls part tokens) :
    match part with
    | .whole level tree => ReadAs level tree tokens
    | .rest loop left tree => CarriedOn loop left tree tokens := by
  induction derives with
  | atom found => exact readAs_atom found
  | group opens closes _ ih => exact readAs_group opens closes ih
  | applied _ kind called opens separates closes first second ihFirst ihSecond =>
    exact readAs_applied kind called opens separates closes first second ihFirst ihSecond
  | base _ ih => exact readAs_base ih
  | raised _ kind _ ihFirst ihSecond => exact readAs_raised ihFirst kind ihSecond
  | unsigned operand ih => exact readAs_unsigned operand.startsAt ih
  | minus kind _ ih => exact readAs_minus kind ih
  | plus kind _ ih => exact readAs_plus kind ih
  | alone _ ih => exact readAs_alone ih
  | compared _ found _ ihFirst ihSecond => exact readAs_compared ihFirst found ihSecond
  | positive operand ih => exact readAs_positive operand.startsAt ih
  | not kind _ ih => exact readAs_not kind ih
  | chain _ others ihFirst ihOthers =>
    exact readAs_chain ihFirst ihOthers others.nesting_le others.stops_rest
  | done => exact carriedOn_done
  | step found _ others ihNext ihOthers =>
    exact carriedOn_step found ihNext ihOthers others.nesting_le others.stops_rest

def isOperatorKind : Kind → Bool
  | .number _ => true
  | .string _ => true
  | .ident _ => true
  | .openParen => true
  | .closeParen => true
  | .keyword .orWord => true
  | .keyword .andWord => true
  | .keyword .notWord => true
  | .caret => true
  | .plus => true
  | .minus => true
  | .star => true
  | .slash => true
  | kind => (comparison? kind).isSome

/-- Operands, operators and brackets only, and no name that is called. -/
def onlyOperators : List Token → Bool
  | [] => true
  | token :: rest =>
    isOperatorKind token.kind &&
      !(token.kind.name?.isSome && rest.head?.any (·.kind == .openParen)) && onlyOperators rest

theorem onlyOperators_append {before behind : List Token}
    (only : onlyOperators (before ++ behind) = true) : onlyOperators behind = true := by
  induction before with
  | nil => exact only
  | cons token before ih =>
    simp only [List.cons_append, onlyOperators, Bool.and_eq_true] at only
    exact ih only.2

theorem isOperatorKind_of_cons {token : Token} {tokens : List Token}
    (only : onlyOperators (token :: tokens) = true) : isOperatorKind token.kind = true := by
  simp only [onlyOperators, Bool.and_eq_true] at only
  exact only.1.1

/-- Neither brackets nor a dot stand behind a name. -/
theorem notNext_of_ident {token : Token} {name : String} {tokens : List Token}
    (kind : token.kind = .ident name) (only : onlyOperators (token :: tokens) = true) :
    NotNext (· = .openParen) tokens ∧ NotNext (fun kind => kind.isMemberMark) tokens := by
  cases tokens with
  | nil => exact ⟨notNext_nil, notNext_nil⟩
  | cons next tokens =>
    have other := isOperatorKind_of_cons (@onlyOperators_append [token] _ only)
    simp only [onlyOperators, kind, Kind.name?, Option.isSome_some, List.head?_cons,
      Option.any_some, Bool.true_and, Bool.and_eq_true, Bool.not_eq_true'] at only
    refine ⟨notNext_cons.2 (by simpa using only.1.2), notNext_cons.2 ?_⟩
    intro mark
    cases behind : next.kind <;> simp_all [Kind.isMemberMark, isOperatorKind, comparison?]

/-- What the reader takes from tokens of operators has a derivation. -/
def Sound (reader : Reader) (level : Level) : Prop :=
  ∀ ⦃context : Context⦄ ⦃tokens rest : List Token⦄ ⦃expr : Expr⦄, onlyOperators tokens = true →
    (reader context tokens).Yields expr rest →
    ∃ part tree, tokens = part ++ rest ∧ Derives false (.whole level tree) part

section Sound

variable {inner : Inner} (sound : ∀ entry, Sound (inner entry) (entryLevel entry))

include sound

theorem sound_primary : Sound (Grammar.primary inner) .primary := by
  intro context tokens rest expr only yields
  cases tokens with
  | nil => exact (Grammar.primary_nil yields).elim
  | cons token tokens =>
    have operator := isOperatorKind_of_cons only
    cases kind : token.kind with
    | number digits =>
      obtain ⟨-, rfl⟩ := (Grammar.primary_number kind).1 yields
      exact ⟨[token], .number digits, rfl, .atom (by rw [kind]; rfl)⟩
    | string literal =>
      obtain ⟨-, rfl⟩ := (Grammar.primary_string kind).1 yields
      exact ⟨[token], .text literal, rfl, .atom (by rw [kind]; rfl)⟩
    | ident name =>
      obtain ⟨notCalled, notMember⟩ := notNext_of_ident kind only
      have alone : ∃ shorter, Grammar.members token.stop tokens =
          .ok ⟨[], token.stop, tokens, shorter⟩ := Grammar.members_of_notNext notMember
      obtain ⟨shorter, alone⟩ := alone
      rw [Grammar.primary_ident kind, Grammar.named_value notCalled, Grammar.nameValue_yields]
        at yields
      have same : rest = tokens := by
        rcases yields with ⟨-, rfl⟩ | ⟨-, tail, path, found, -, -, rfl⟩
        · rfl
        · rw [alone] at found
          cases found
          rfl
      obtain rfl := same
      exact ⟨[token], .name name, rfl, .atom (by rw [kind]; rfl)⟩
    | openParen =>
      rw [Grammar.primary_openParen kind, Grammar.group_yields] at yields
      obtain ⟨exprs, last, listed, closes, -⟩ := yields
      have inside := @onlyOperators_append [token] _ only
      cases listed with
      | last taken _ =>
        obtain ⟨part, tree, rfl, derives⟩ := sound .expression inside taken
        exact ⟨token :: (part ++ [last]), .group tree, by simp, .group kind closes derives⟩
      | more taken comma _ =>
        obtain ⟨part, tree, rfl, -⟩ := sound .expression inside taken
        have bad := isOperatorKind_of_cons (onlyOperators_append inside)
        rw [comma] at bad
        cases bad
    | keyword word =>
      have starts := Grammar.primary_starts yields
      cases word <;> simp_all [Grammar.startsPrimary, isOperatorKind, comparison?]
    | _ =>
      have starts := Grammar.primary_starts yields
      simp_all [Grammar.startsPrimary, isOperatorKind, comparison?]

theorem sound_power : Sound (Grammar.power inner) .power := by
  intro context tokens rest expr only yields
  obtain ⟨base, middle, taken, risen⟩ := Grammar.power_yields.1 yields
  obtain ⟨before, left, rfl, first⟩ := sound_primary sound only taken
  rcases risen with ⟨-, -, rfl⟩ | ⟨caret, after, exponent, rfl, kind, raised, -⟩
  · exact ⟨before, left, rfl, .base first⟩
  · have behind := @onlyOperators_append [caret] _ (onlyOperators_append only)
    obtain ⟨part, right, rfl, second⟩ := sound .signed behind raised
    exact ⟨before ++ caret :: part, _, by simp, .raised first kind second⟩

theorem sound_signed : Sound (Grammar.signed inner) .signed := by
  intro context tokens rest expr only yields
  by_cases minus : ∃ sign after, tokens = sign :: after ∧ sign.kind = .minus
  · obtain ⟨sign, after, rfl, kind⟩ := minus
    obtain ⟨operand, taken, -⟩ := (Grammar.signed_minus kind).1 yields
    obtain ⟨part, tree, rfl, derives⟩ := sound .signed (@onlyOperators_append [sign] _ only) taken
    exact ⟨sign :: part, .minus tree, rfl, .minus kind derives⟩
  · by_cases plus : ∃ sign after, tokens = sign :: after ∧ sign.kind = .plus
    · obtain ⟨sign, after, rfl, kind⟩ := plus
      have taken := (Grammar.signed_plus kind).1 yields
      obtain ⟨part, tree, rfl, derives⟩ := sound .signed (@onlyOperators_append [sign] _ only) taken
      exact ⟨sign :: part, .plus tree, rfl, .plus kind derives⟩
    · have unsigned : NotNext (fun kind => kind = .minus ∨ kind = .plus) tokens := by
        intro sign next kind
        obtain ⟨after, rfl⟩ := List.head?_eq_some_iff.1 next
        rcases kind with isMinus | isPlus
        · exact minus ⟨sign, after, rfl, isMinus⟩
        · exact plus ⟨sign, after, rfl, isPlus⟩
      rw [Grammar.signed_unsigned unsigned] at yields
      obtain ⟨part, tree, same, derives⟩ := sound_power sound only yields
      exact ⟨part, tree, same, .unsigned derives⟩

omit sound in
theorem sound_chained {operand : Reader} {loop : Loop} (sound : Sound operand loop.operand)
    {context : Context} {tokens rest : List Token} {start expr : Expr}
    (chained : Grammar.Chained loop.operator? operand context start tokens expr rest)
    (only : onlyOperators tokens = true) (left : Tree) :
    ∃ part tree, tokens = part ++ rest ∧ Derives false (.rest loop left tree) part := by
  induction chained generalizing left with
  | stop _ => exact ⟨[], left, rfl, .done⟩
  | @step op _ _ _ token _ _ _ found taken _ ih =>
    obtain ⟨before, right, rfl, next⟩ := sound (@onlyOperators_append [token] _ only) taken
    have behind := onlyOperators_append (@onlyOperators_append [token] _ only)
    obtain ⟨part, tree, rfl, others⟩ := ih behind (.binary op left right)
    exact ⟨token :: (before ++ part), tree, by simp, .step found next others⟩

omit sound in
theorem sound_loop {loop : Loop} (sound : Sound (loop.operand.reader inner) loop.operand) :
    Sound ((Level.loop loop).reader inner) (.loop loop) := by
  rw [Level.reader_loop]
  intro context tokens rest expr only yields
  obtain ⟨start, middle, taken, chained⟩ := Grammar.leftAssociative_yields.1 yields
  obtain ⟨before, left, rfl, first⟩ := sound only taken
  obtain ⟨part, tree, rfl, others⟩ := sound_chained sound chained (onlyOperators_append only) left
  exact ⟨before ++ part, tree, by simp, .chain first others⟩

theorem sound_sum : Sound (Grammar.sum inner) (.loop .sum) :=
  @sound_loop _ .sum (@sound_loop _ .product (sound_signed sound))

theorem sound_comparison : Sound (Grammar.comparison inner) .comparison := by
  intro context tokens rest expr only yields
  rw [Grammar.comparison_yields, comparisonOperator?_eq] at yields
  obtain ⟨value, middle, taken, compared⟩ := yields
  obtain ⟨before, left, rfl, first⟩ := sound_sum sound only taken
  rcases compared with ⟨-, -, rfl⟩ | ⟨sign, after, op, other, rfl, found, second, -⟩
  · exact ⟨before, left, rfl, .alone first⟩
  · have behind := @onlyOperators_append [sign] _ (onlyOperators_append only)
    obtain ⟨part, right, rfl, derives⟩ := sound_sum sound behind second
    exact ⟨before ++ sign :: part, _, by simp, .compared first found derives⟩

theorem sound_negation : Sound (Grammar.negation inner) .negation := by
  intro context tokens rest expr only yields
  by_cases negated : ∃ word after, tokens = word :: after ∧ word.kind = .keyword .notWord
  · obtain ⟨word, after, rfl, kind⟩ := negated
    obtain ⟨operand, taken, -⟩ := (Grammar.negation_not kind).1 yields
    obtain ⟨part, tree, rfl, derives⟩ :=
      sound .negation (@onlyOperators_append [word] _ only) taken
    exact ⟨word :: part, .not tree, rfl, .not kind derives⟩
  · have positive : NotNext (· = .keyword .notWord) tokens := by
      intro word next kind
      obtain ⟨after, rfl⟩ := List.head?_eq_some_iff.1 next
      exact negated ⟨word, after, rfl, kind⟩
    rw [Grammar.negation_positive positive] at yields
    obtain ⟨part, tree, same, derives⟩ := sound_comparison sound only yields
    exact ⟨part, tree, same, .positive derives⟩

theorem sound_disjunction : Sound (Grammar.disjunction inner) (.loop .disjunction) :=
  @sound_loop _ .disjunction (@sound_loop _ .conjunction (sound_negation sound))

end Sound

theorem sound_readerAt (levels : Nat) (entry : Entry) :
    Sound (Grammar.readerAt levels entry) (entryLevel entry) := by
  induction levels generalizing entry with
  | zero =>
    intro context tokens rest expr only yields
    exact (Grammar.readerAt_zero yields).elim
  | succ fewer ih =>
    -- A reader calls the three entries with one level less, and nothing else that recurs.
    cases entry with
    | expression => exact sound_disjunction ih
    | negation => exact sound_negation ih
    | signed => exact sound_signed ih

end Formulary.Operators
