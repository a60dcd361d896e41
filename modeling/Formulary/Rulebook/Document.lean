import Formulary.Json.Reader
import Formulary.Rulebook.Basic

set_option autoImplicit false

/- Rulebooks as JSON documents. A document is an object with a `meta-model`, an object with
`entities`, or a list of entities, tried in this order.

A record is an object or an array. In an object, members with unknown keys are skipped, and a
known key may not be repeated; in an array, the fields stand in their order and those at the end
may be left out. Here every field is either there with a value or not there at all, and what
that means is decided field by field. -/
namespace Formulary.Document

/-- The value of the member with one of these keys. Two such members are refused. -/
def memberOf (members : List (String × JsonValue)) (keys : List String) :
    Option (Option JsonValue) :=
  match members.filter fun member => keys.contains member.1 with
  | [] => some none
  | [member] => some (some member.2)
  | _ => none

/-- The fields of a record, each given by the keys that it may have. -/
def record (fields : List (List String)) : JsonValue → Option (List (Option JsonValue))
  | .object members => fields.mapM (memberOf members)
  | .array items =>
    if items.length ≤ fields.length then
      some (items.map some ++ List.replicate (fields.length - items.length) none)
    else none
  | _ => none

def text? : JsonValue → Option String
  | .string value => some value
  | _ => none

/-- A text that has to be there. -/
def requiredText (field : Option JsonValue) : Option String := field.bind text?

/-- A text that is empty if it is left out. -/
def textOrEmpty : Option JsonValue → Option String
  | none => some ""
  | some value => text? value

/-- A text that may be left out or be null. -/
def optionalText : Option JsonValue → Option (Option String)
  | none => some none
  | some .null => some none
  | some value => (text? value).map some

def listOf {α : Type} (decode : JsonValue → Option α) : JsonValue → Option (List α)
  | .array items => items.mapM decode
  | _ => none

/-- A list that is empty if it is left out. -/
def listOrEmpty {α : Type} (decode : JsonValue → Option α) : Option JsonValue → Option (List α)
  | none => some []
  | some value => listOf decode value

/-- The type `calculated` makes a calculated field; any other is stored. -/
def fieldKind (typeName : Option String) (formula description : String) : FieldKind :=
  match typeName with
  | some "calculated" => .calculated formula description
  | some other => .stored other
  | none => .stored "scalar"

def field? (value : JsonValue) : Option Field := do
  match ← record [["name"], ["type"], ["formula"], ["description"]] value with
  | [name, typeName, formula, description] =>
    let name ← requiredText name
    let typeName ← optionalText typeName
    let formula ← textOrEmpty formula
    let description ← textOrEmpty description
    return ⟨name, fieldKind typeName formula description⟩
  | _ => none

/-- A lookup is derived if its target is `this` and it has a join condition. Otherwise its type
decides. -/
def relation (typeName target joinCondition : Option String) : Relation :=
  match target, joinCondition, typeName with
  | some "this", some condition, _ => .derived condition
  | _, _, some "one_to_many" => .oneToMany
  | _, _, some "many_to_many" => .manyToMany
  | _, _, _ => .reference

def lookup? (value : JsonValue) : Option Lookup := do
  match ← record [["name"], ["type"], ["target_entity", "targetEntity"],
      ["join_condition", "joinCondition"]] value with
  | [name, typeName, target, joinCondition] =>
    let name ← requiredText name
    let typeName ← optionalText typeName
    let target ← optionalText target
    let joinCondition ← optionalText joinCondition
    return ⟨name, relation typeName target joinCondition⟩
  | _ => none

def aggregate? (value : JsonValue) : Option Aggregate := do
  match ← record [["name"], ["formula"], ["description"]] value with
  | [name, formula, description] =>
    let name ← requiredText name
    let formula ← textOrEmpty formula
    let description ← textOrEmpty description
    return ⟨name, formula, description⟩
  | _ => none

def entity? (value : JsonValue) : Option Entity := do
  match ← record [["name"], ["fields"], ["lookups"], ["aggregations"]] value with
  | [name, fields, lookups, aggregates] =>
    let name ← requiredText name
    let fields ← listOrEmpty field? fields
    let lookups ← listOrEmpty lookup? lookups
    let aggregates ← listOrEmpty aggregate? aggregates
    return ⟨name, fields, lookups, aggregates⟩
  | _ => none

/-- A record with the one field `entities`. -/
def body? (value : JsonValue) : Option (List Entity) := do
  match ← record [["entities"]] value with
  | [some entities] => listOf entity? entities
  | _ => none

/-- A record with the one field `schema`. -/
def metaModel? (value : JsonValue) : Option (List Entity) := do
  match ← record [["schema"]] value with
  | [some body] => body? body
  | _ => none

/-- An object with the member `meta-model`. There is no array form of it. -/
def wrapped? : JsonValue → Option (List Entity)
  | .object members => do
    match ← memberOf members ["meta-model"] with
    | some model => metaModel? model
    | none => none
  | _ => none

/-- The entities of a document, not yet checked. -/
def entities? (value : JsonValue) : Option (List Entity) :=
  wrapped? value <|> body? value <|> listOf entity? value

end Formulary.Document
