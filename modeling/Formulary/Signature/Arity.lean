set_option autoImplicit false

namespace Formulary

/-- How many arguments a function takes. -/
inductive Arity where
  /-- Every count from `least` to `most`. -/
  | range (least most : Nat)
  /-- The listed counts only, in ascending order. -/
  | forms (counts : List Nat)
  deriving DecidableEq, Repr

namespace Arity

def exactly (count : Nat) : Arity := .range count count

def least : Arity → Nat
  | .range least _ => least
  | .forms counts => counts.head?.getD 0

def most : Arity → Nat
  | .range _ most => most
  | .forms counts => counts.getLast?.getD 0

def accepts : Arity → Nat → Bool
  | .range least most, count => least ≤ count && count ≤ most
  | .forms counts, count => counts.contains count

end Arity

end Formulary
