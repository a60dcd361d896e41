import Formulary.Formula.Basic
import Formulary.Output.Line
import Formulary.Rulebook.Basic

set_option autoImplicit false

namespace Formulary

/-- How a member is computed. -/
inductive Rule where
  | join (condition : String)
  | formula (text description : String)
  deriving DecidableEq, Repr

namespace Rule

/-- The text as the user wrote it. -/
def source : Rule → String
  | join condition => condition
  | formula text _ => text

def compile : Rule → Traced Fragment
  | join condition =>
    Traced.ofExcept ((joinCollection condition).map fun found => .plain found.render)
  | formula text _ => Formula.compile text

/-- The docstring: one line for a join, three for a formula. -/
def docstring : Rule → List Line
  | join condition =>
    [⟨2, tripleQuote ++ "Derived from " ++ quoted (oneLine condition) ++ tripleQuote⟩]
  | formula text description =>
    [⟨2, tripleQuote ++ quoted description⟩,
      ⟨2, "Original formula: " ++ quoted (oneLine text)⟩,
      ⟨2, tripleQuote⟩]

end Rule

/-- A member that is computed. -/
structure Property where
  name : String
  rule : Rule
  deriving DecidableEq, Repr

namespace Field

def property? (field : Field) : Option Property :=
  match field.kind with
  | .stored _ => none
  | .calculated formula description => some ⟨field.name, .formula formula description⟩

end Field

namespace Lookup

def property? (lookup : Lookup) : Option Property :=
  match lookup.relation with
  | .derived condition => some ⟨lookup.name, .join condition⟩
  | _ => none

end Lookup

namespace Aggregate

def property (aggregate : Aggregate) : Property :=
  ⟨aggregate.name, .formula aggregate.formula aggregate.description⟩

end Aggregate

namespace Entity

/-- The computed members in the order of their accessors: derived lookups, calculated fields,
aggregates. -/
def properties (entity : Entity) : List Property :=
  entity.lookups.filterMap Lookup.property? ++ entity.fields.filterMap Field.property? ++
    entity.aggregates.map Aggregate.property

end Entity

/-- A rule that could not be compiled. -/
structure Failure where
  entity : String
  member : String
  formula : String
  fault : Fault
  deriving DecidableEq

/-- A computed member with what compiling its rule gave. -/
structure Accessor where
  property : Property
  outcome : Traced Fragment

namespace Accessor

def ofProperty (property : Property) : Accessor := ⟨property, property.rule.compile⟩

def body (accessor : Accessor) : List Line :=
  match accessor.outcome.result with
  | .ok fragment => [⟨2, "return " ++ fragment.code⟩]
  | .error fault => [⟨2, "# Formula error: " ++ oneLine fault.message⟩, ⟨2, "return None"⟩]

def lines (accessor : Accessor) : List Line :=
  [.blank, ⟨1, "@property"⟩, ⟨1, "def " ++ accessor.property.name ++ "(self):"⟩] ++
    accessor.property.rule.docstring ++ accessor.body

/-- What the code needs. A failed rule needs nothing. -/
def needs (accessor : Accessor) : Needs :=
  match accessor.outcome.result with
  | .ok fragment => fragment.needs
  | .error _ => .none

def failure? (entity : String) (accessor : Accessor) : Option Failure :=
  match accessor.outcome.result with
  | .ok _ => none
  | .error fault =>
    some ⟨entity, accessor.property.name, accessor.property.rule.source, fault⟩

/-- The log of compiling the rule, then one record on its outcome. -/
def log (entity : String) (accessor : Accessor) : List LogRecord :=
  let member := entity ++ "." ++ accessor.property.name
  let last : LogRecord := match accessor.outcome.result with
    | .ok fragment => ⟨.debug, member ++ " => " ++ fragment.code⟩
    | .error fault =>
      ⟨.warn, member ++ ": " ++ fault.message ++
        " (formula: " ++ accessor.property.rule.source ++ ")"⟩
  accessor.outcome.log ++ [last]

end Accessor

end Formulary
