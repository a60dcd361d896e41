import Formulary.Files
import Formulary.Rulebook.Document
import Formulary.Rulebook.Identifier

set_option autoImplicit false

namespace Formulary

/-- What a name is for. -/
inductive NameRole where
  | entity
  | member (owner : String)
  deriving DecidableEq, Repr

namespace NameRole

def describe : NameRole → String
  | entity => "entity"
  | member owner => "member of " ++ owner

end NameRole

inductive SchemaFault where
  /-- The text is not one JSON value. -/
  | notJson
  /-- The value is none of the shapes of a rulebook. -/
  | noShape
  | unreadable (path : String) (cause : FileFault)
  | invalidIdentifier (role : NameRole) (name : String)
  | duplicateMember (entity member : String)
  | duplicateEntity (name : String)
  deriving DecidableEq, Repr

namespace SchemaFault

def message : SchemaFault → String
  | notJson => "invalid schema document: not a JSON value"
  | noShape =>
    "invalid schema document: data did not match any variant of untagged enum Document"
  | unreadable path cause => "failed to read " ++ path ++ ": " ++ cause.message
  | invalidIdentifier role name => "invalid identifier '" ++ name ++ "' for " ++ role.describe
  | duplicateMember entity member =>
    "duplicate member '" ++ member ++ "' in entity " ++ entity
  | duplicateEntity name => "duplicate entity '" ++ name ++ "'"

end SchemaFault

namespace Rulebook

/-- Checks names of members, given those that came before. -/
def checkMembers (entity : String) (seen : List String) : List String → Except SchemaFault Unit
  | [] => .ok ()
  | name :: rest =>
    if !isIdentifier name then .error (.invalidIdentifier (.member entity) name)
    else if seen.contains name then .error (.duplicateMember entity name)
    else checkMembers entity (name :: seen) rest

/-- Checks the name of an entity and those of its members. -/
def checkEntity (entity : Entity) : Except SchemaFault Unit :=
  if !isIdentifier entity.name then .error (.invalidIdentifier .entity entity.name)
  else checkMembers entity.name [] entity.memberNames

/-- Checks entities, given the names of those that came before. -/
def checkEntities (seen : List String) : List Entity → Except SchemaFault Unit
  | [] => .ok ()
  | entity :: rest => do
    checkEntity entity
    if seen.contains entity.name then .error (.duplicateEntity entity.name)
    checkEntities (entity.name :: seen) rest

/-- The rulebook of a list of entities, if all their names are good. -/
def ofEntities (entities : List Entity) : Except SchemaFault Rulebook := do
  checkEntities [] entities
  return ⟨entities⟩

/-- The rulebook in a JSON value. -/
def ofJson (value : JsonValue) : Except SchemaFault Rulebook :=
  match Document.entities? value with
  | none => .error .noShape
  | some entities => ofEntities entities

/-- The rulebook in a text. The value is looked at before the text after it. -/
def ofText (text : String) : Except SchemaFault Rulebook :=
  match JsonValue.read? text with
  | none => .error .notJson
  | some (value, rest) =>
    match Document.entities? value with
    | none => .error .noShape
    | some entities =>
      if JsonReader.skipSpace rest = [] then ofEntities entities else .error .notJson

/-- The rulebook in a file that has been read, or not. -/
def ofFile (path : String) : Except FileFault String → Except SchemaFault Rulebook
  | .ok text => ofText text
  | .error cause => .error (.unreadable path cause)

end Rulebook

end Formulary
