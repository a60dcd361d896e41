set_option autoImplicit false

namespace Formulary

inductive Level where
  | trace
  | debug
  | info
  | warn
  | error
  deriving DecidableEq, Repr

/-- Records are returned in the order in which they arise; showing them is the caller's work. -/
structure LogRecord where
  level : Level
  message : String
  deriving DecidableEq, Repr

end Formulary
