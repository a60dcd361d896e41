set_option autoImplicit false

namespace Formulary

/-- What bare names are members of. -/
inductive Receiver where
  | entity
  /-- The element that a comprehension runs over. -/
  | element (var : String)
  /-- The element that a key names as its parameter. -/
  | parameter (name : String)
  deriving DecidableEq, Repr

/-- The code of a receiver. -/
def Receiver.text : Receiver → String
  | entity => "self"
  | element var => var
  | parameter name => name

/-- What names mean inside a part of a formula. Bare names are members of the receiver: the entity
at the top, the current element inside a clause of an aggregation. The key of a keyed
aggregation also gives its element a name of its own. -/
structure Scope where
  receiver : Receiver
  /-- The number of clauses and keys around this part. -/
  depth : Nat
  deriving DecidableEq, Repr

namespace Scope

/-- The scope of a whole formula. -/
def entity : Scope := ⟨.entity, 0⟩

/-- The code that bare names are members of. -/
def receiverText (scope : Scope) : String := scope.receiver.text

def inClause (scope : Scope) : Bool := scope.receiver != .entity

/-- Whether a name is the parameter of the key around this part. -/
def binds (scope : Scope) (name : String) : Bool := scope.receiver == .parameter name

/-- The variable for a comprehension that starts here. -/
def nextVar (scope : Scope) : String :=
  match scope.depth with
  | 0 => "item"
  | depth => "item" ++ toString depth

/-- The scope of a clause whose comprehension runs `var` over the elements. -/
def element (scope : Scope) (var : String) : Scope := ⟨.element var, scope.depth + 1⟩

/-- The scope of a key with this parameter. -/
def lambda (scope : Scope) (name : String) : Scope := ⟨.parameter name, scope.depth + 1⟩

end Scope

end Formulary
