import Formulary.Signature.Arity
import Formulary.Signature.Template

set_option autoImplicit false

namespace Formulary

/-- How the arguments of a call are read. -/
inductive CallShape where
  /-- Every argument is an expression. -/
  | positional
  /-- A collection and the bare name of a member of its elements. -/
  | collectionField
  /-- An expression, then optionally `axis=`. -/
  | axisKeyword
  /-- An expression, then `axis=` and `index=` in either order. -/
  | sliceKeywords
  /-- As `positional`, for a function that the generated code has to import. -/
  | buildingBlock
  deriving DecidableEq, Repr

/-- A function that a formula can call by name. -/
structure Signature where
  name : String
  arity : Arity
  template : Template
  shape : CallShape
  deriving DecidableEq, Repr

namespace Signature

def isBuildingBlock (signature : Signature) : Bool := signature.shape == .buildingBlock

/-- A function of one argument, written between two texts. -/
def around (name before after : String) : Signature :=
  ⟨name, .exactly 1, [.literal before, .hole "0", .literal after], .positional⟩

/-- A function of two arguments, written with an operator between them. -/
def between (name operator : String) : Signature :=
  ⟨name, .exactly 2,
    [.literal "(", .hole "0", .literal (" " ++ operator ++ " "), .hole "1", .literal ")"],
    .positional⟩

/-- A function of two arguments of the target language. -/
def binaryCall (name callee : String) : Signature :=
  ⟨name, .exactly 2, [.literal (callee ++ "("), .hole "0", .literal ", ", .hole "1", .literal ")"],
    .positional⟩

/-- A reduction over one member of every element of a collection. -/
def overMember (name reducer : String) : Signature :=
  ⟨name, .exactly 2,
    [.literal (reducer ++ "("), .hole "var", .literal ".", .hole "1", .literal " for ",
      .hole "var", .literal " in ", .hole "0", .literal ")"],
    .collectionField⟩

/-- A building block, called by its own name. -/
def block (name : String) (arity : Arity) : Signature :=
  ⟨name, arity, [.literal (name ++ "("), .hole "*", .literal ")"], .buildingBlock⟩

/-- Every function, in the order of the names. -/
def table : List Signature := [
  around "ABS" "np.abs(" ")",
  between "ADD" "+",
  block "APPLY_BARRIER" (.exactly 6),
  block "COLLAPSE_BARRIER" (.exactly 6),
  around "CONJUGATE_TRANSPOSE" "" ".conj().T",
  between "DIVIDE" "/",
  binaryCall "EQUAL" "np.allclose",
  block "EVOLVE" (.forms [4, 10, 11]),
  around "FLOOR" "math.floor(" ")",
  block "GAUSSIAN_IN_Y_AND_UNIFORM_IN_X_AND_DIRECTION" (.exactly 5),
  around "IDENTITY" "np.eye(" ", dtype=np.complex128)",
  ⟨"IF", .exactly 3,
    [.literal "(", .hole "1", .literal " if ", .hole "0", .literal " else ", .hole "2",
      .literal ")"],
    .positional⟩,
  around "LEN" "len(" ")",
  binaryCall "MATMUL" "np.matmul",
  overMember "MAX_OVER" "max",
  between "MULTIPLY" "*",
  between "POWER" "**",
  block "SHIFT" (.exactly 2),
  ⟨"SLICE", .exactly 3,
    [.literal "np.take(", .hole "0", .literal ", ", .hole "index", .literal ", axis=",
      .hole "axis", .literal ")"],
    .sliceKeywords⟩,
  around "SQRT" "np.sqrt(" ")",
  between "SUBTRACT" "-",
  ⟨"SUM", .range 1 2, [.literal "np.sum(", .hole "0", .hole "axis", .literal ")"],
    .axisKeyword⟩,
  overMember "SUM_OVER" "sum",
  around "TRANSPOSE" "" ".T"]

/-- The function of that name, in any mix of upper and lower case. -/
def lookup? (name : String) : Option Signature := table.find? (·.name == name.toUpper)

/-- The functions that the generated code imports. -/
def buildingBlocks : List String :=
  ["SHIFT", "APPLY_BARRIER", "COLLAPSE_BARRIER", "GAUSSIAN_IN_Y_AND_UNIFORM_IN_X_AND_DIRECTION",
    "EVOLVE"]

theorem table_names_sorted : (table.map Signature.name).Pairwise (· < ·) := by decide

end Signature

end Formulary
