import Formulary.Formula.Step

set_option autoImplicit false

/- Aggregations over collections.

A reduction is `[collection] [WHERE predicate] [=> projection]`. A keyed aggregation is
`[collection [WHERE predicate],] parameter => key`, with a count in front for the topmost
elements. Without a collection, the receiver is the collection. -/
namespace Formulary.Aggregation

def names : List String :=
  ["COUNT", "SUM", "AVG", "MINBY", "MAXBY", "MODE", "TOPN", "EXISTS"]

/-- Whether a call is an aggregation and not a function of the table. `SUM` is both: it is an
aggregation if it has a clause or sums a field over a collection. -/
def isRelational (name : String) (arguments : List Token) (scope : Scope) : Bool :=
  if name = "SUM" then
    !(topLevel (fun token => token.isWhere || token.isFatArrow) arguments).isEmpty ||
      match referenceNames? arguments with
      | some names => 2 ≤ scope.memberCount names
      | none => false
  else names.contains name

/-- The parts of `collection [WHERE predicate] [=> projection]`. -/
structure Clause where
  collection : List Token
  predicate : Option (List Token)
  projection : Option (List Token)
  deriving DecidableEq, Repr

/-- Tokens that have to be there. -/
def nonEmpty (name : String) (cause : ClauseCause) (tokens : List Token) :
    Except Fault (List Token) :=
  if tokens = [] then .error (.aggregationClause name cause) else .ok tokens

/-- Cuts a list at the places of `WHERE` and `=>`. -/
def cutClause (name : String) (tokens : List Token) : Option Nat → Option Nat → Except Fault Clause
  | none, none => .ok ⟨tokens, none, none⟩
  | some whereAt, none => do
    let predicate ← nonEmpty name .emptyPredicate (tokens.drop (whereAt + 1))
    return ⟨tokens.take whereAt, some predicate, none⟩
  | none, some arrowAt => do
    let projection ← nonEmpty name .emptyProjection (tokens.drop (arrowAt + 1))
    return ⟨tokens.take arrowAt, none, some projection⟩
  | some whereAt, some arrowAt => do
    if arrowAt < whereAt then .error (.aggregationClause name .arrowBeforeWhere)
    let predicate ← nonEmpty name .emptyPredicate ((tokens.take arrowAt).drop (whereAt + 1))
    let projection ← nonEmpty name .emptyProjection (tokens.drop (arrowAt + 1))
    return ⟨tokens.take whereAt, some predicate, some projection⟩

/-- The parts of a clause. It has no comma, and one `WHERE` and one `=>` at most, in that order,
each with tokens behind it; brackets hide what is inside them. -/
def splitClause (name : String) (tokens : List Token) : Except Fault Clause :=
  match topLevel Token.isComma tokens with
  | comma :: _ =>
    .error (.aggregationClause name (.comma ((tokens[comma]?.map Token.start).getD 0)))
  | [] =>
    let wheres := topLevel Token.isWhere tokens
    let arrows := topLevel Token.isFatArrow tokens
    if 1 < wheres.length then .error (.aggregationClause name .secondWhere)
    else if 1 < arrows.length then .error (.aggregationClause name .secondArrow)
    else cutClause name tokens wheres.head? arrows.head?

/-- A key with the name of its parameter. -/
structure Key where
  parameter : String
  body : List Token
  deriving DecidableEq, Repr

/-- The parts of `parameter => key`. -/
def splitKey (name : String) (tokens : List Token) : Except Fault Key :=
  if topLevel Token.isFatArrow tokens = [] then .error (.aggregationClause name .missingArrow)
  else
    match tokens with
    | parameter :: arrow :: body =>
      if arrow.isFatArrow then
        match parameter.kind.name? with
        | none => .error (.aggregationClause name .parameterNotName)
        | some parameter =>
          if body = [] then .error (.aggregationClause name .emptyKey)
          else .ok ⟨parameter, body⟩
      else .error (.aggregationClause name .parameterNotName)
    | _ => .error (.aggregationClause name .parameterNotName)

/-- The source and the key of a keyed aggregation, from its arguments. -/
def splitKeyed (name : String) (arguments : List (List Token)) : Except Fault (Clause × Key) :=
  match arguments with
  | [key] => do
    let key ← splitKey name key
    return (⟨[], none, none⟩, key)
  | [source, key] => do
    let clause ← splitClause name source
    if clause.projection.isSome then .error (.aggregationClause name .arrowInSource)
    let key ← splitKey name key
    return (clause, key)
  | _ => .error (.aggregationClause name .keyedShape)

/-- What an aggregation runs over, and the scope of its elements. -/
structure Source where
  collection : Expr
  predicate : Option Expr
  var : String
  elements : Scope

def readCollection (read : SliceReader) (source : List Char) (scope : Scope)
    (tokens : List Token) : Traced Expr :=
  match tokens with
  | [] => return .reference (.whole ⟨scope.receiver, []⟩)
  | tokens =>
    match referenceNames? tokens with
    | some names => do
      let collection ← scope.collection names (sourceText source tokens)
      return .reference collection
    | none => read scope tokens

def readOptional (read : SliceReader) (scope : Scope) : Option (List Token) → Traced (Option Expr)
  | none => return none
  | some tokens => do
    let expr ← read scope tokens
    return some expr

def readSource (read : SliceReader) (source : List Char) (scope : Scope) (clause : Clause) :
    Traced Source := do
  let collection ← readCollection read source scope clause.collection
  let var := scope.nextVar
  let elements := scope.element var
  let predicate ← readOptional read elements clause.predicate
  return ⟨collection, predicate, var, elements⟩

/-- A reduction. Its name is looked at last, when all its parts have been read. -/
def readReduction (read : SliceReader) (source : List Char) (name : String)
    (arguments : List Token) (scope : Scope) : Traced Expr := do
  let clause ← splitClause name arguments
  let found ← readSource read source scope clause
  let projection ← readOptional read found.elements clause.projection
  match Reducer.ofName? name with
  | some reducer => return .reduce reducer found.var found.collection found.predicate projection
  | none => .fail (.unknownFunction name)

def readExtreme (read : SliceReader) (source : List Char) (which : Extreme) (name : String)
    (arguments : List Token) (scope : Scope) : Traced Expr := do
  let parts ← splitArguments arguments
  let (clause, key) ← splitKeyed name parts
  let found ← readSource read source scope clause
  let body ← read (scope.lambda key.parameter) key.body
  return .extreme which found.var found.collection found.predicate key.parameter body

def readTop (read : SliceReader) (source : List Char) (name : String) (arguments : List Token)
    (scope : Scope) : Traced Expr := do
  let parts ← splitArguments arguments
  match parts with
  | [] => .fail (.aggregationClause name .missingCount)
  | [_] => .fail (.aggregationClause name .missingKey)
  | count :: keyed =>
    let count ← read scope count
    let (clause, key) ← splitKeyed name keyed
    let found ← readSource read source scope clause
    let body ← read (scope.lambda key.parameter) key.body
    return .top count found.var found.collection found.predicate key.parameter body

/-- The log record for an aggregation that is about to be read. -/
def record (name : String) (text : String) : LogRecord :=
  ⟨.trace, "rewriting " ++ name ++ " aggregation: " ++ text⟩

/-- Reads the arguments of the aggregation with this name. -/
def read (slice : SliceReader) (source : List Char) (name : String) (arguments : List Token)
    (scope : Scope) : Traced Expr := do
  Traced.note (record name (sourceText source arguments))
  match name with
  | "MINBY" => readExtreme slice source .least name arguments scope
  | "MAXBY" => readExtreme slice source .greatest name arguments scope
  | "TOPN" => readTop slice source name arguments scope
  | _ => readReduction slice source name arguments scope

end Formulary.Aggregation
