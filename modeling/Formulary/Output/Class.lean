import Formulary.Output.Accessor

set_option autoImplicit false

namespace Formulary

namespace Field

/-- The line that sets a stored field. The type is a comment unless it is the usual one. -/
def assignment? (field : Field) : Option Line :=
  match field.kind with
  | .calculated _ _ => none
  | .stored typeName =>
    let code := "self." ++ field.name ++ " = kwargs.get('" ++ field.name ++ "')"
    if typeName = "scalar" then some ⟨2, code⟩ else some ⟨2, code ++ "  # " ++ oneLine typeName⟩

end Field

namespace Lookup

/-- The line that makes an empty collection. -/
def assignment? (lookup : Lookup) : Option Line :=
  if lookup.relation.isCollection then
    some ⟨2, "self." ++ lookup.name ++ " = CollectionWrapper(self, '" ++ lookup.name ++ "')"⟩
  else none

end Lookup

namespace Entity

/-- Stored fields, a blank line, collections. If there is neither, the constructor does nothing. -/
def constructorBody (entity : Entity) : List Line :=
  match entity.fields.filterMap Field.assignment?, entity.lookups.filterMap Lookup.assignment? with
  | [], [] => [⟨2, "pass"⟩]
  | fields, [] => fields
  | [], collections => collections
  | fields, collections => fields ++ .blank :: collections

/-- The lines of the class before its accessors. -/
def classHead (entity : Entity) : List Line :=
  [⟨0, "class " ++ entity.name ++ ":"⟩,
    ⟨1, tripleQuote ++ "Plain data container for " ++ entity.name ++ " entities." ++ tripleQuote⟩,
    ⟨1, "def __init__(self, **kwargs):"⟩] ++ entity.constructorBody

end Entity

/-- The code for one entity. -/
structure ClassCode where
  name : String
  lines : List Line
  needs : Needs
  failures : List Failure
  log : List LogRecord

namespace ClassCode

def ofEntity (entity : Entity) : ClassCode :=
  let accessors := entity.properties.map Accessor.ofProperty
  { name := entity.name
    lines := entity.classHead ++ accessors.flatMap Accessor.lines
    needs := .joinAll (accessors.map Accessor.needs)
    failures := accessors.filterMap (Accessor.failure? entity.name)
    log := accessors.flatMap (Accessor.log entity.name) }

def text (code : ClassCode) : String := "\n".intercalate (code.lines.map Line.render)

end ClassCode

end Formulary
