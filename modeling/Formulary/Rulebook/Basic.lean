set_option autoImplicit false

namespace Formulary

inductive FieldKind where
  /-- Given when an object is made. Its type is only a remark. -/
  | stored (typeName : String)
  | calculated (formula description : String)
  deriving DecidableEq, Repr

structure Field where
  name : String
  kind : FieldKind
  deriving DecidableEq, Repr

inductive Relation where
  | oneToMany
  | manyToMany
  /-- A field of every element of one of the entity's own collections. -/
  | derived (joinCondition : String)
  /-- Any other relation. Nothing is written for it. -/
  | reference
  deriving DecidableEq, Repr

namespace Relation

def isCollection : Relation → Bool
  | oneToMany => true
  | manyToMany => true
  | _ => false

end Relation

structure Lookup where
  name : String
  relation : Relation
  deriving DecidableEq, Repr

structure Aggregate where
  name : String
  formula : String
  description : String
  deriving DecidableEq, Repr

structure Entity where
  name : String
  fields : List Field
  lookups : List Lookup
  aggregates : List Aggregate
  deriving DecidableEq, Repr

namespace Field

def isStored (field : Field) : Bool :=
  match field.kind with
  | .stored _ => true
  | .calculated _ _ => false

end Field

namespace Entity

/-- The names of all members: fields, lookups, aggregates. -/
def memberNames (entity : Entity) : List String :=
  entity.fields.map Field.name ++ entity.lookups.map Lookup.name ++
    entity.aggregates.map Aggregate.name

def storedFields (entity : Entity) : List Field := entity.fields.filter Field.isStored

/-- The number of calculated fields and aggregates. -/
def formulaCount (entity : Entity) : Nat :=
  (entity.fields.filter fun field => !field.isStored).length + entity.aggregates.length

end Entity

structure Rulebook where
  entities : List Entity
  deriving DecidableEq, Repr

namespace Rulebook

def formulaCount (rulebook : Rulebook) : Nat :=
  rulebook.entities.foldr (fun entity count => entity.formulaCount + count) 0

end Rulebook

end Formulary
