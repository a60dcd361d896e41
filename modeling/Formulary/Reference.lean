import Formulary.Scope
import Formulary.Token.Brackets

set_option autoImplicit false

namespace Formulary

/-- The names of a dotted reference. Anything else is none. -/
def referenceNames? : List Token → Option (List String)
  | [] => none
  | [token] => token.kind.name?.map ([·])
  | token :: mark :: rest =>
    if mark.kind.isMemberMark then do
      let name ← token.kind.name?
      let more ← referenceNames? rest
      return name :: more
    else none

/-- A chain of members from a receiver. -/
structure Path where
  receiver : Receiver
  members : List String
  deriving DecidableEq, Repr

namespace Path

def render (path : Path) : String :=
  path.members.foldl (fun text member => text ++ "." ++ member) path.receiver.text

end Path

/-- What an aggregation runs over when it is given by a reference. -/
inductive Collection where
  | whole (path : Path)
  /-- One field of every element at a path. -/
  | projected (path : Path) (field var : String)
  deriving DecidableEq, Repr

namespace Collection

def render : Collection → String
  | whole path => path.render
  | projected path field var =>
    "[" ++ var ++ "." ++ field ++ " for " ++ var ++ " in " ++ path.render ++ "]"

end Collection

namespace Scope

/-- The path for a reference. The name `this` is the entity in every scope, and a bound
parameter is itself; any other name is a member of the receiver. -/
def resolve (scope : Scope) (names : List String) : Path :=
  match names with
  | [] => ⟨scope.receiver, []⟩
  | head :: rest =>
    if head = "this" then ⟨.entity, rest⟩
    else if scope.binds head then ⟨.parameter head, rest⟩
    else ⟨scope.receiver, head :: rest⟩

/-- The number of members that a reference reaches through. -/
def memberCount (scope : Scope) (names : List String) : Nat := (scope.resolve names).members.length

/-- A reference as a value. At the top any chain of members goes; inside a clause it stops at a
field of a member. -/
def value (scope : Scope) (names : List String) (text : String) : Except Fault Path :=
  let path := scope.resolve names
  if scope.inClause ∧ 2 < path.members.length then .error (.multiDotReference text)
  else .ok path

/-- A reference as a collection: the receiver, a member, or one field of the elements of a
member. -/
def collection (scope : Scope) (names : List String) (text : String) : Except Fault Collection :=
  let path := scope.resolve names
  match path.members with
  | [] => .ok (.whole path)
  | [_] => .ok (.whole path)
  | [member, field] => .ok (.projected ⟨path.receiver, [member]⟩ field scope.nextVar)
  | _ => .error (.multiDotReference text)

end Scope

/-- The collection that the join condition of a derived lookup names. It has to be
`this.<collection>.<field>`. -/
def joinCollection (condition : String) : Except Fault Collection := do
  let tokens ← tokenize condition
  let text := Text.trim condition
  match referenceNames? tokens with
  | some names =>
    match names with
    | ["this", _, _] => Scope.entity.collection names text
    | "this" :: _ :: _ :: _ => .error (.multiDotReference text)
    | _ => .error (.joinCondition text)
  | none => .error (.joinCondition text)

end Formulary
