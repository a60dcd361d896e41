import Formulary.Formula.Call

set_option autoImplicit false

/- The grammar of expressions, from the loosest operator to the tightest:

    disjunction  conjunction (OR conjunction)*
    conjunction  negation (AND negation)*
    negation     NOT negation | comparison
    comparison   sum [(= == != <> < <= > >= IN) sum]
    sum          product ((+ | -) product)*
    product      signed ((* | /) signed)*
    signed       - signed | + signed | power
    power        primary [^ signed]
    primary      number | string | literal | reference | call | conditional | group | list

Each level is a reader that gets the readers one nesting level deeper as `inner`; the right-hand
sides of NOT, of a sign and of `^`, and everything in brackets, go through `inner`. No reader
refers to itself otherwise, so the depth of nesting is all that bounds the recursion. -/
namespace Formulary.Grammar

/-- Continues a chain of operators of one level, which bind to the left. -/
def chain (operator? : Kind → Option BinaryOp) (operand : Reader) (context : Context)
    (left : Expr) (tokens : List Token) : Traced (Step (tokens.length + 1)) :=
  match tokens with
  | [] => return ⟨left, [], Nat.lt_succ_self _⟩
  | token :: rest =>
    match operator? token.kind with
    | none => return ⟨left, token :: rest, Nat.lt_succ_self _⟩
    | some op => do
      let right ← operand context rest
      let final ← chain operator? operand context (.binary op left right.expr) right.rest
      return final.widen (Nat.succ_le_succ (Nat.le_succ_of_le (Nat.le_of_lt right.shorter)))
termination_by tokens.length
decreasing_by exact Nat.lt_succ_of_lt right.shorter

/-- Operands with operators of one level between them. -/
def leftAssociative (operator? : Kind → Option BinaryOp) (operand : Reader) : Reader :=
  fun context tokens => do
    let first ← operand context tokens
    let final ← chain operator? operand context first.expr first.rest
    return final.widen first.shorter

def orOperator? : Kind → Option BinaryOp
  | .keyword .orWord => some .or
  | _ => none

def andOperator? : Kind → Option BinaryOp
  | .keyword .andWord => some .and
  | _ => none

def comparisonOperator? : Kind → Option BinaryOp
  | .equal => some .equal
  | .equalEqual => some .equal
  | .notEqual => some .notEqual
  | .less => some .less
  | .lessEqual => some .lessEqual
  | .greater => some .greater
  | .greaterEqual => some .greaterEqual
  | .keyword .inWord => some .isIn
  | _ => none

def sumOperator? : Kind → Option BinaryOp
  | .plus => some .add
  | .minus => some .subtract
  | _ => none

def productOperator? : Kind → Option BinaryOp
  | .star => some .multiply
  | .slash => some .divide
  | _ => none

/-- Takes a token of a kind off the head of a list. -/
def expect (context : Context) (wanted : Kind) (tokens : List Token) : Except Fault (List Token) :=
  match tokens with
  | [] => .error (.malformed context.stop (.missing wanted none))
  | token :: rest =>
    if token.kind = wanted then .ok rest
    else .error (.malformed token.start (.missing wanted (some token.kind)))

theorem expect_shorter {context : Context} {wanted : Kind} {tokens rest : List Token}
    (found : expect context wanted tokens = .ok rest) : rest.length < tokens.length := by
  unfold expect at found
  split at found
  · contradiction
  · split at found
    · obtain rfl := Except.ok.inj found
      simp
    · contradiction

/-- Expressions with commas between them, and the tokens after the last. -/
structure Items (bound : Nat) where
  exprs : List Expr
  rest : List Token
  shorter : rest.length < bound

def items (expression : Reader) (context : Context) (tokens : List Token) :
    Traced (Items tokens.length) := do
  let first ← expression context tokens
  match _ : first.rest with
  | [] => return ⟨[first.expr], [], Nat.lt_of_le_of_lt (Nat.zero_le _) first.shorter⟩
  | token :: rest =>
    have shorter : rest.length + 1 < tokens.length := by
      have := first.shorter
      simp_all only [List.length_cons]
    if token.isComma then do
      let more ← items expression context rest
      return ⟨first.expr :: more.exprs, more.rest, by have := more.shorter; omega⟩
    else return ⟨[first.expr], token :: rest, shorter⟩
termination_by tokens.length

/-- Items up to a closing token. -/
def itemsUpTo (closing : Kind) (expression : Reader) (context : Context) (tokens : List Token) :
    Traced (Items tokens.length) := do
  let found ← items expression context tokens
  match closed : expect context closing found.rest with
  | .error fault => .fail fault
  | .ok rest =>
    return ⟨found.exprs, rest, Nat.lt_trans (expect_shorter closed) found.shorter⟩

/-- After an open round bracket: one expression stands for itself, several are a tuple. -/
def group (inner : Inner) : Reader := fun context tokens => do
  let found ← itemsUpTo .closeParen (inner .expression) context tokens
  match found.exprs with
  | [expr] => return ⟨expr, found.rest, found.shorter⟩
  | exprs => return ⟨.tuple exprs, found.rest, found.shorter⟩

/-- After an open square bracket. -/
def listLiteral (inner : Inner) : Reader := fun context tokens =>
  match tokens with
  | [] => do
    let found ← itemsUpTo .closeBracket (inner .expression) context []
    return ⟨.list found.exprs, found.rest, found.shorter⟩
  | token :: rest =>
    if token.kind = .closeBracket then return ⟨.list [], rest, by simp⟩
    else do
      let found ← itemsUpTo .closeBracket (inner .expression) context (token :: rest)
      return ⟨.list found.exprs, found.rest, found.shorter⟩

/-- The names after the head of a reference, where the last of them stops, and what follows. -/
structure Members (bound : Nat) where
  names : List String
  stop : Nat
  rest : List Token
  shorter : rest.length < bound

theorem Members.shorter_cons {rest : List Token} (more : Members (rest.length + 1))
    (mark token : Token) : more.rest.length < (mark :: token :: rest).length + 1 := by
  have := more.shorter
  simp only [List.length_cons]
  omega

def members (stop : Nat) (tokens : List Token) : Except Fault (Members (tokens.length + 1)) :=
  match tokens with
  | [] => .ok ⟨[], stop, [], by simp⟩
  | [mark] =>
    if mark.kind.isMemberMark then .error (.malformed mark.stop .missingMember)
    else .ok ⟨[], stop, [mark], by simp⟩
  | mark :: token :: rest =>
    if mark.kind.isMemberMark then
      match token.kind.name? with
      | none => .error (.malformed mark.stop .missingMember)
      | some name => do
        let more ← members token.stop rest
        return ⟨name :: more.names, more.stop, more.rest, more.shorter_cons mark token⟩
    else .ok ⟨[], stop, mark :: token :: rest, by simp⟩

/-- The names that stand for a value of their own, in any mix of upper and lower case. -/
def literal? (name : String) : Option Expr :=
  match name.toLower with
  | "true" => some (.boolean true)
  | "false" => some (.boolean false)
  | "null" => some .null
  | "none" => some .null
  | _ => none

/-- A name that is not called: a literal, or a reference with the members after it. -/
def nameValue (context : Context) (head : Token) (name : String) (rest : List Token) :
    Traced (Step (rest.length + 1)) :=
  match literal? name with
  | some expr => return ⟨expr, rest, by simp⟩
  | none => do
    let tail ← members head.stop rest
    let text := Text.slice context.source head.start tail.stop
    let path ← context.scope.value (name :: tail.names) text
    return ⟨.reference (.whole path), tail.rest, tail.shorter⟩

/-- A name, which is a call if a round bracket follows. -/
def named (inner : Inner) (context : Context) (head : Token) (name : String)
    (rest : List Token) : Traced (Step (rest.length + 1)) :=
  match rest with
  | [] => nameValue context head name []
  | opening :: after =>
    if opening.kind = .openParen then
      match inside : enclosed opening after with
      | .error fault => .fail fault
      | .ok (arguments, tail) => do
        let expr ← Call.read (readWhole inner context.source) context.source context.scope name
          arguments
        return ⟨expr, tail, by
          have := enclosed_shorter inside
          simp only [List.length_cons]
          omega⟩
    else nameValue context head name (opening :: after)

/-- The branches of a conditional, after its `THEN`. -/
def branches (inner : Inner) (context : Context) (condition : Expr) (tokens : List Token) :
    Traced (Step tokens.length) := do
  let yes ← inner .expression context tokens
  match _ : yes.rest with
  | [] => .fail (.malformed context.stop .missingElse)
  | token :: rest =>
    if token.kind = .keyword .elseWord then do
      let no ← inner .expression context rest
      return ⟨.conditional condition yes.expr no.expr, no.rest, by
        have := no.shorter
        have := yes.shorter
        simp_all only [List.length_cons]
        omega⟩
    else .fail (.malformed token.start .missingElse)

/-- After the keyword `IF`: a conditional if `THEN` follows the brackets, else a call. -/
def conditional (inner : Inner) (context : Context) (keyword : Token) (tokens : List Token) :
    Traced (Step tokens.length) :=
  match tokens with
  | [] => .fail (.malformed keyword.stop .ifWithoutParen)
  | opening :: after =>
    if opening.kind = .openParen then
      match inside : enclosed opening after with
      | .error fault => .fail fault
      | .ok (condition, tail) =>
        have shorter : tail.length < after.length := enclosed_shorter inside
        match tail with
        | [] => do
          let expr ← Call.read (readWhole inner context.source) context.source context.scope "IF"
            condition
          return ⟨expr, [], by simp⟩
        | token :: rest =>
          if token.kind = .keyword .thenWord then
            if condition = [] then .fail (.malformed opening.start .ifWithoutCondition)
            else do
              let test ← readWhole inner context.source context.scope condition
              let step ← branches inner context test rest
              return step.widen (by simp only [List.length_cons] at shorter ⊢; omega)
          else do
            let expr ← Call.read (readWhole inner context.source) context.source context.scope
              "IF" condition
            return ⟨expr, token :: rest, by simp only [List.length_cons] at shorter ⊢; omega⟩
    else .fail (.malformed keyword.stop .ifWithoutParen)

def primary (inner : Inner) : Reader := fun context tokens =>
  match tokens with
  | [] => .fail (.malformed context.stop .unexpectedEnd)
  | token :: rest =>
    match token.kind with
    | .number digits => return ⟨.number digits, rest, by simp⟩
    | .string literal => return ⟨.text literal, rest, by simp⟩
    | .openParen => do
      let step ← group inner context rest
      return step.widen (by simp)
    | .openBracket => do
      let step ← listLiteral inner context rest
      return step.widen (by simp)
    | .keyword .ifWord => do
      let step ← conditional inner context token rest
      return step.widen (by simp)
    | .ident name => named inner context token name rest
    | kind => .fail (.malformed token.start (.unexpectedToken kind))

/-- A base with an optional exponent. -/
def power (inner : Inner) : Reader := fun context tokens => do
  let base ← primary inner context tokens
  match _ : base.rest with
  | [] => return base
  | token :: rest =>
    if token.kind = .caret then do
      let exponent ← inner .signed context rest
      return ⟨.binary .power base.expr exponent.expr, exponent.rest, by
        have := exponent.shorter
        have := base.shorter
        simp_all only [List.length_cons]
        omega⟩
    else return base

def signed (inner : Inner) : Reader := fun context tokens =>
  match tokens with
  | [] => power inner context []
  | token :: rest =>
    if token.kind = .minus then do
      let operand ← inner .signed context rest
      return (operand.map .negate).widen (by simp)
    else if token.kind = .plus then do
      let operand ← inner .signed context rest
      return operand.widen (by simp)
    else power inner context (token :: rest)

def product (inner : Inner) : Reader := leftAssociative productOperator? (signed inner)

def sum (inner : Inner) : Reader := leftAssociative sumOperator? (product inner)

/-- One comparison at most: a chain of them needs brackets. -/
def comparison (inner : Inner) : Reader := fun context tokens => do
  let left ← sum inner context tokens
  match _ : left.rest with
  | [] => return left
  | token :: rest =>
    match comparisonOperator? token.kind with
    | none => return left
    | some op => do
      let right ← sum inner context rest
      return ⟨.binary op left.expr right.expr, right.rest, by
        have := right.shorter
        have := left.shorter
        simp_all only [List.length_cons]
        omega⟩

def negation (inner : Inner) : Reader := fun context tokens =>
  match tokens with
  | [] => comparison inner context []
  | token :: rest =>
    if token.kind = .keyword .notWord then do
      let operand ← inner .negation context rest
      return (operand.map .not).widen (by simp)
    else comparison inner context (token :: rest)

def conjunction (inner : Inner) : Reader := leftAssociative andOperator? (negation inner)

def disjunction (inner : Inner) : Reader := leftAssociative orOperator? (conjunction inner)

/-- The reader when no level of nesting is left. -/
def tooDeep : Reader := fun context tokens =>
  .fail (.malformed ((tokens.head?.map Token.start).getD context.stop) .nestedTooDeep)

/-- The readers with so many levels of nesting left. -/
def readerAt : Nat → Inner
  | 0, _ => tooDeep
  | levels + 1, .expression => disjunction (readerAt levels)
  | levels + 1, .negation => negation (readerAt levels)
  | levels + 1, .signed => signed (readerAt levels)

end Formulary.Grammar
