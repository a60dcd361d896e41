import Formulary.Token.Brackets

set_option autoImplicit false

namespace Formulary

/-- Whether the tokens start with `IF (...) THEN`. -/
def startsConditional : List Token → Bool
  | keyword :: opening :: rest =>
    keyword.kind == .keyword .ifWord && opening.kind == .openParen &&
      match upToClose 0 rest with
      | some (_, next :: _) => next.kind == .keyword .thenWord
      | _ => false
  | _ => false

/-- Whether `IF (...) THEN` stands anywhere among the tokens. -/
def holdsConditional : List Token → Bool
  | [] => false
  | token :: rest => startsConditional (token :: rest) || holdsConditional rest

/-- Whether a text holds `IF (...) THEN`. -/
def hasConditional (text : String) : Bool := holdsConditional (tokenizeLenient text)

end Formulary
