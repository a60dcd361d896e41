import Formulary.Formula.Expr
import Formulary.Formula.Traced

set_option autoImplicit false

namespace Formulary

/-- What a reader knows besides its tokens: the formula, the meaning of names, and the byte
position where the list that is being read stops. -/
structure Context where
  source : List Char
  scope : Scope
  stop : Nat

/-- An expression and the tokens after it, fewer than `bound`. -/
structure Step (bound : Nat) where
  expr : Expr
  rest : List Token
  shorter : rest.length < bound

namespace Step

def widen {bound wider : Nat} (step : Step bound) (le : bound ≤ wider) : Step wider :=
  ⟨step.expr, step.rest, Nat.lt_of_lt_of_le step.shorter le⟩

/-- Puts the expression into a larger one. -/
def map {bound : Nat} (step : Step bound) (build : Expr → Expr) : Step bound :=
  { step with expr := build step.expr }

end Step

/-- Takes an expression off the head of a list and returns what is left, which is always shorter. -/
abbrev Reader := Context → (tokens : List Token) → Traced (Step tokens.length)

/-- Where an expression may start one level deeper. -/
inductive Entry where
  /-- A whole expression. -/
  | expression
  /-- What a `NOT` negates. -/
  | negation
  /-- What a sign or an exponent takes: an operand with its own signs. -/
  | signed
  deriving DecidableEq, Repr

/-- The readers one level deeper. -/
abbrev Inner := Entry → Reader

/-- Reads a list as one expression in a scope. -/
abbrev SliceReader := Scope → List Token → Traced Expr

/-- Reads the whole of a list as one expression. -/
def readWhole (inner : Inner) (source : List Char) : SliceReader := fun scope tokens =>
  match tokens with
  | [] => .fail (.malformed 0 .emptyExpression)
  | first :: more => do
    let step ← inner .expression ⟨source, scope, endOffset (first :: more)⟩ (first :: more)
    match step.rest with
    | [] => return step.expr
    | extra :: _ => .fail (.malformed extra.start (.unexpectedToken extra.kind))

end Formulary
