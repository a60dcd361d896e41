import Formulary.Fragment
import Formulary.Reference
import Formulary.Signature.Table

set_option autoImplicit false

namespace Formulary

inductive BinaryOp where
  | or
  | and
  | equal
  | notEqual
  | less
  | lessEqual
  | greater
  | greaterEqual
  | isIn
  | add
  | subtract
  | multiply
  | divide
  | power
  deriving DecidableEq, Repr

namespace BinaryOp

/-- The operator in front of a right operand. Equality with nothing is identity. -/
def symbol (op : BinaryOp) (right : String) : String :=
  match op with
  | or => "or"
  | and => "and"
  | equal => if right = "None" then "is" else "=="
  | notEqual => if right = "None" then "is not" else "!="
  | less => "<"
  | lessEqual => "<="
  | greater => ">"
  | greaterEqual => ">="
  | isIn => "in"
  | add => "+"
  | subtract => "-"
  | multiply => "*"
  | divide => "/"
  | power => "**"

def code (op : BinaryOp) (left right : String) : String :=
  "(" ++ left ++ " " ++ op.symbol right ++ " " ++ right ++ ")"

end BinaryOp

/-- A minus sign. It stands bare before an unsigned number and in brackets otherwise. -/
def negationCode (operand : String) : String :=
  if Text.isUnsignedNumber operand then "-" ++ operand else "(-" ++ operand ++ ")"

def conditionalCode (condition yes no : String) : String :=
  "(" ++ yes ++ " if " ++ condition ++ " else " ++ no ++ ")"

/-- A text repeated. -/
def repeated (count : Nat) (text : String) : String :=
  "".intercalate (List.replicate count text)

theorem repeated_succ (count : Nat) (text : String) :
    repeated (count + 1) text = text ++ repeated count text := by
  cases count with
  | zero => simp [repeated]
  | succ count => simp [repeated, List.replicate_succ, String.intercalate_cons_cons]

/-- One index along an axis: counted from the first axis, or from the last if negative. -/
def indexAlong (target : String) (axis : Int) (index : String) : String :=
  if 0 ≤ axis then target ++ "[" ++ repeated axis.natAbs ":, " ++ index ++ "]"
  else target ++ "[..., " ++ index ++ repeated (axis.natAbs - 1) ", :" ++ "]"

/-- The axis that a code gives literally. -/
def literalAxis? (code : String) : Option Int :=
  Text.boundedInteger? Text.maxSignedWord code.toList

/-- Explicit indexing for a literal axis, and the template of the call for any other. -/
def sliceCode (signature : Signature) (target axis index : String) : String :=
  match literalAxis? axis with
  | some n => indexAlong target n index
  | none => signature.template.fill [target] [("axis", axis), ("index", index)]

def axisCode (signature : Signature) (target : String) (axis : Option String) : String :=
  match axis with
  | none => signature.template.fill [target] []
  | some axis => signature.template.fill [target] [("axis", ", axis=" ++ axis)]

/-- A value for each element of a collection, or for each that passes a test. -/
def generator (value var collection : String) (predicate : Option String) : String :=
  value ++ " for " ++ var ++ " in " ++ collection ++
    match predicate with
    | none => ""
    | some test => " if " ++ test

/-- A collection, or those of its elements that pass a test. -/
def filtered (var collection : String) (predicate : Option String) : String :=
  match predicate with
  | none => collection
  | some test => "(" ++ generator var var collection (some test) ++ ")"

/-- The aggregations that reduce a collection to one value. -/
inductive Reducer where
  | count
  | sum
  | mean
  | mode
  | exists
  deriving DecidableEq, Repr

namespace Reducer

def ofName? (name : String) : Option Reducer :=
  match name with
  | "COUNT" => some count
  | "SUM" => some sum
  | "AVG" => some mean
  | "MODE" => some mode
  | "EXISTS" => some .exists
  | _ => none

def needsStatistics : Reducer → Bool
  | mean => true
  | mode => true
  | _ => false

/-- A reduction that applies one function to the values. -/
def applyCode (function var collection : String) (predicate projection : Option String) : String :=
  match predicate, projection with
  | none, none => function ++ "(" ++ collection ++ ")"
  | _, _ => function ++ "(" ++ generator (projection.getD var) var collection predicate ++ ")"

/-- The number of elements, of those that pass, or of those whose projection is present. -/
def countCode (var collection : String) (predicate projection : Option String) : String :=
  match predicate, projection with
  | none, none => "len(" ++ collection ++ ")"
  | some test, none => "sum(" ++ generator "1" var collection (some test) ++ ")"
  | none, some value =>
    "sum(" ++ generator "1" var collection (some (value ++ " is not None")) ++ ")"
  | some test, some value =>
    "sum(" ++ generator "1" var collection (some (test ++ " and " ++ value ++ " is not None")) ++
      ")"

def existsCode (var collection : String) (predicate projection : Option String) : String :=
  match predicate, projection with
  | none, none => "(len(" ++ collection ++ ") > 0)"
  | _, _ => "any(" ++ generator (projection.getD "True") var collection predicate ++ ")"

def code (reducer : Reducer) (var collection : String) (predicate projection : Option String) :
    String :=
  match reducer with
  | count => countCode var collection predicate projection
  | sum => applyCode "sum" var collection predicate projection
  | mean => applyCode "statistics.mean" var collection predicate projection
  | mode => applyCode "statistics.mode" var collection predicate projection
  | .exists => existsCode var collection predicate projection

end Reducer

/-- Which element of a collection a key picks. -/
inductive Extreme where
  | least
  | greatest
  deriving DecidableEq, Repr

namespace Extreme

def function : Extreme → String
  | least => "min"
  | greatest => "max"

def code (extreme : Extreme) (elements parameter key : String) : String :=
  extreme.function ++ "(" ++ elements ++ ", key=lambda " ++ parameter ++ ": " ++ key ++ ")"

end Extreme

def topCode (count elements parameter key : String) : String :=
  "sorted(" ++ elements ++ ", key=lambda " ++ parameter ++ ": " ++ key ++ ", reverse=True)[:" ++
    count ++ "]"

/-- A formula as a tree, with every name resolved. -/
inductive Expr where
  | number (digits : String)
  /-- A string literal with its quotes. -/
  | text (literal : String)
  | boolean (value : Bool)
  | null
  | reference (collection : Collection)
  | not (operand : Expr)
  | negate (operand : Expr)
  | binary (op : BinaryOp) (left right : Expr)
  | conditional (condition yes no : Expr)
  | tuple (items : List Expr)
  | list (items : List Expr)
  | call (signature : Signature) (arguments : List Expr)
  /-- A reduction over one member of every element. -/
  | overMember (signature : Signature) (collection : Expr) (member var : String)
  /-- A reduction of an array, along an axis if one is given. -/
  | alongAxis (signature : Signature) (target : Expr) (axis : Option Expr)
  /-- One index of an array along an axis. -/
  | slice (signature : Signature) (target axis index : Expr)
  | reduce (reducer : Reducer) (var : String) (collection : Expr)
      (predicate projection : Option Expr)
  | extreme (which : Extreme) (var : String) (collection : Expr) (predicate : Option Expr)
      (parameter : String) (key : Expr)
  | top (count : Expr) (var : String) (collection : Expr) (predicate : Option Expr)
      (parameter : String) (key : Expr)

namespace Expr

mutual

/-- The code of an expression. It delimits itself, so it can stand in any other code. -/
def render : Expr → String
  | number digits => digits
  | text literal => literal
  | boolean true => "True"
  | boolean false => "False"
  | null => "None"
  | reference collection => collection.render
  | not operand => "(not " ++ operand.render ++ ")"
  | negate operand => negationCode operand.render
  | binary op left right => op.code left.render right.render
  | conditional condition yes no => conditionalCode condition.render yes.render no.render
  | tuple items => "(" ++ ", ".intercalate (renderAll items) ++ ")"
  | list items => "[" ++ ", ".intercalate (renderAll items) ++ "]"
  | call signature arguments => signature.template.fill (renderAll arguments) []
  | overMember signature collection member var =>
    signature.template.fill [collection.render, member] [("var", var)]
  | alongAxis signature target axis => axisCode signature target.render (renderOption axis)
  | slice signature target axis index =>
    sliceCode signature target.render axis.render index.render
  | reduce reducer var collection predicate projection =>
    reducer.code var collection.render (renderOption predicate) (renderOption projection)
  | extreme which var collection predicate parameter key =>
    which.code (filtered var collection.render (renderOption predicate)) parameter key.render
  | top count var collection predicate parameter key =>
    topCode count.render (filtered var collection.render (renderOption predicate)) parameter
      key.render

def renderAll : List Expr → List String
  | [] => []
  | item :: rest => item.render :: renderAll rest

def renderOption : Option Expr → Option String
  | none => none
  | some expr => some expr.render

end

/-- What a call needs by itself: a building block has to be imported. -/
def callNeeds (signature : Signature) : Needs :=
  if signature.isBuildingBlock then ⟨NameSet.empty.insert signature.name, false⟩ else .none

mutual

def needs : Expr → Needs
  | number _ => .none
  | text _ => .none
  | boolean _ => .none
  | null => .none
  | reference _ => .none
  | not operand => operand.needs
  | negate operand => operand.needs
  | binary _ left right => left.needs.join right.needs
  | conditional condition yes no => (condition.needs.join yes.needs).join no.needs
  | tuple items => needsAll items
  | list items => needsAll items
  | call signature arguments => (needsAll arguments).join (callNeeds signature)
  | overMember _ collection _ _ => collection.needs
  | alongAxis _ target axis => target.needs.join (needsOption axis)
  | slice _ target axis index => (target.needs.join axis.needs).join index.needs
  | reduce reducer _ collection predicate projection =>
    ((collection.needs.join (needsOption predicate)).join (needsOption projection)).join
      ⟨.empty, reducer.needsStatistics⟩
  | extreme _ _ collection predicate _ key =>
    (collection.needs.join (needsOption predicate)).join key.needs
  | top count _ collection predicate _ key =>
    ((collection.needs.join (needsOption predicate)).join count.needs).join key.needs

def needsAll : List Expr → Needs
  | [] => .none
  | item :: rest => item.needs.join (needsAll rest)

def needsOption : Option Expr → Needs
  | none => .none
  | some expr => expr.needs

end

/-- The code of an expression with what it needs. -/
def fragment (expr : Expr) : Fragment := ⟨expr.render, expr.needs⟩

end Expr

end Formulary
