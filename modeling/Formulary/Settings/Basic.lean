set_option autoImplicit false

namespace Formulary

/-- What a user can choose about the generated module. -/
structure Settings where
  /-- The module that the building blocks are imported from. -/
  blockModule : String
  /-- Whether the module ends with a sample entry point. -/
  sampleMain : Bool
  /-- The text of the module's docstring. -/
  header : String
  deriving DecidableEq, Repr

namespace Settings

def defaultBlockModule : String := "quantum_walk_blocks"

def defaultHeader : String :=
  "Auto-generated Python code from your domain model.\n" ++
    "Includes aggregation rewriting and CollectionWrapper for relationships."

def default : Settings := ⟨defaultBlockModule, false, defaultHeader⟩

end Settings

end Formulary
