import Formulary.Formula.Grammar

set_option autoImplicit false

namespace Formulary.Formula

/-- Reads tokens of a formula as one expression. -/
def readSlice (source : List Char) : SliceReader :=
  readWhole (Grammar.readerAt maxNesting) source

/-- The tree of a formula. A formula without tokens is nothing. -/
def parse (formula : String) : Traced Expr := do
  let tokens ← tokenize formula
  match tokens with
  | [] => return .null
  | tokens => readSlice formula.toList .entity tokens

/-- The code of a formula with what it needs. -/
def compile (formula : String) : Traced Fragment := do
  let expr ← parse formula
  return expr.fragment

/-- The code of an aggregation in a scope, from the tokens of its arguments. -/
def compileAggregation (source : String) (name : String) (arguments : List Token)
    (scope : Scope) : Traced Fragment := do
  let expr ← Aggregation.read (readSlice source.toList) source.toList name arguments scope
  return expr.fragment

end Formulary.Formula
