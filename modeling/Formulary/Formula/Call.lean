import Formulary.Formula.Aggregation

set_option autoImplicit false

namespace Formulary.Call

/-- The keywords that an argument can start with. -/
inductive ArgumentKey where
  | axis
  | index
  deriving DecidableEq, Repr

namespace ArgumentKey

def name : ArgumentKey → String
  | axis => "axis"
  | index => "index"

def ofName? (name : String) : Option ArgumentKey :=
  match name.toLower with
  | "axis" => some axis
  | "index" => some index
  | _ => none

end ArgumentKey

/-- An argument written `axis=value` or `index=value`. -/
def keyword? : List Token → Option (ArgumentKey × List Token)
  | ⟨.ident name, _, _⟩ :: ⟨.equal, _, _⟩ :: value =>
    (ArgumentKey.ofName? name).map fun key => (key, value)
  | _ => none

/-- An argument that must not be a keyword. -/
def readPositional (read : SliceReader) (scope : Scope) (signature : Signature)
    (argument : List Token) : Traced Expr :=
  match keyword? argument with
  | some (key, _) => .fail (.keywordArgument signature.name (.inPositional key.name))
  | none => read scope argument

def readAll (read : SliceReader) (scope : Scope) (signature : Signature) :
    List (List Token) → Traced (List Expr)
  | [] => return []
  | argument :: rest => do
    let first ← readPositional read scope signature argument
    let more ← readAll read scope signature rest
    return first :: more

/-- The value of a keyword, which may not be left out. -/
def readValue (read : SliceReader) (scope : Scope) (signature : Signature) (key : ArgumentKey)
    (value : List Token) : Traced Expr :=
  if value = [] then .fail (.keywordArgument signature.name (.missingValue key.name))
  else read scope value

/-- The argument that names a member of the elements. -/
def memberName (source : List Char) (signature : Signature) (argument : List Token) :
    Except Fault String :=
  match argument with
  | [⟨.ident name, _, _⟩] => .ok name
  | _ => .error (.aggregationClause signature.name (.memberNotName (sourceText source argument)))

def readOverMember (read : SliceReader) (source : List Char) (scope : Scope)
    (signature : Signature) (collection member : List Token) : Traced Expr := do
  let collection ← readPositional read scope signature collection
  let member ← memberName source signature member
  return .overMember signature collection member scope.nextVar

def readAlongAxis (read : SliceReader) (source : List Char) (scope : Scope)
    (signature : Signature) (target axis : List Token) : Traced Expr := do
  let target ← readPositional read scope signature target
  match keyword? axis with
  | some (.axis, value) =>
    let axis ← readValue read scope signature .axis value
    return .alongAxis signature target (some axis)
  | some (.index, _) =>
    .fail (.keywordArgument signature.name (.unknownKey ArgumentKey.index.name))
  | none =>
    .fail (.keywordArgument signature.name (.axisExpected (sourceText source axis)))

/-- The values of `axis=` and `index=` that have been read so far. -/
structure Keywords where
  axis : Option Expr
  index : Option Expr

namespace Keywords

def get? (keywords : Keywords) : ArgumentKey → Option Expr
  | .axis => keywords.axis
  | .index => keywords.index

def set (keywords : Keywords) (value : Expr) : ArgumentKey → Keywords
  | .axis => { keywords with axis := some value }
  | .index => { keywords with index := some value }

end Keywords

def readKeywords (read : SliceReader) (source : List Char) (scope : Scope)
    (signature : Signature) (keywords : Keywords) : List (List Token) → Traced Keywords
  | [] => return keywords
  | argument :: rest =>
    match keyword? argument with
    | none =>
      .fail (.keywordArgument signature.name (.axisOrIndexExpected (sourceText source argument)))
    | some (key, value) =>
      if (keywords.get? key).isSome then
        .fail (.keywordArgument signature.name (.duplicate key.name))
      else do
        let expr ← readValue read scope signature key value
        readKeywords read source scope signature (keywords.set expr key) rest

/-- A literal axis may not be too far from either end. -/
def checkAxis (signature : Signature) (axis : Expr) : Except Fault Unit :=
  match literalAxis? axis.render with
  | some n =>
    if maxLiteralAxis < n.natAbs then
      .error (.keywordArgument signature.name (.axisOutOfRange n))
    else .ok ()
  | none => .ok ()

def readSlice (read : SliceReader) (source : List Char) (scope : Scope)
    (signature : Signature) (target : List Token) (rest : List (List Token)) : Traced Expr := do
  let target ← readPositional read scope signature target
  let keywords ← readKeywords read source scope signature ⟨none, none⟩ rest
  match keywords.axis, keywords.index with
  | some axis, some index =>
    checkAxis signature axis
    return .slice signature target axis index
  | _, _ => .fail (.keywordArgument signature.name .bothRequired)

def arityFault (signature : Signature) (count : Nat) : Fault :=
  .arityMismatch signature.name signature.arity.least signature.arity.most count

/-- Reads arguments of an accepted number by the shape of the call. -/
def readShape (read : SliceReader) (source : List Char) (scope : Scope) (signature : Signature)
    (arguments : List (List Token)) : Traced Expr :=
  match signature.shape, arguments with
  | .positional, arguments => do
    let exprs ← readAll read scope signature arguments
    return .call signature exprs
  | .buildingBlock, arguments => do
    let exprs ← readAll read scope signature arguments
    return .call signature exprs
  | .collectionField, [collection, member] =>
    readOverMember read source scope signature collection member
  | .axisKeyword, [target] => do
    let target ← readPositional read scope signature target
    return .alongAxis signature target none
  | .axisKeyword, [target, axis] => readAlongAxis read source scope signature target axis
  | .sliceKeywords, target :: rest => readSlice read source scope signature target rest
  | _, arguments => .fail (arityFault signature arguments.length)

/-- Reads a call from the tokens between its brackets. -/
def read (slice : SliceReader) (source : List Char) (scope : Scope) (name : String)
    (tokens : List Token) : Traced Expr :=
  let name := name.toUpper
  if Aggregation.isRelational name tokens scope then
    Aggregation.read slice source name tokens scope
  else
    match Signature.lookup? name with
    | none => .fail (.unknownFunction name)
    | some signature => do
      let arguments ← splitArguments tokens
      if signature.arity.accepts arguments.length then
        readShape slice source scope signature arguments
      else .fail (arityFault signature arguments.length)

end Formulary.Call
