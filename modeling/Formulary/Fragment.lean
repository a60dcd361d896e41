import Formulary.NameSet

set_option autoImplicit false

namespace Formulary

/-- What generated code needs to run: the building blocks that it calls and the statistics
module. -/
structure Needs where
  blocks : NameSet
  statistics : Bool
  deriving DecidableEq

namespace Needs

def none : Needs := ⟨.empty, false⟩

def join (left right : Needs) : Needs :=
  ⟨left.blocks.union right.blocks, left.statistics || right.statistics⟩

/-- All that the parts need. -/
def joinAll (parts : List Needs) : Needs := parts.foldl join none

end Needs

/-- Code for one formula, or for one piece of one, with its needs. -/
structure Fragment where
  code : String
  needs : Needs
  deriving DecidableEq

namespace Fragment

/-- Code that needs nothing. -/
def plain (code : String) : Fragment := ⟨code, .none⟩

/-- The same code with the needs of another fragment added. -/
def absorb (fragment other : Fragment) : Fragment :=
  { fragment with needs := fragment.needs.join other.needs }

/-- New code made of parts. -/
def combine (code : String) (parts : List Fragment) : Fragment :=
  parts.foldl absorb (plain code)

def withBlock (fragment : Fragment) (name : String) : Fragment :=
  { fragment with needs := { fragment.needs with blocks := fragment.needs.blocks.insert name } }

def withStatistics (fragment : Fragment) : Fragment :=
  { fragment with needs := { fragment.needs with statistics := true } }

end Fragment

end Formulary
