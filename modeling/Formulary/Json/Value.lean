set_option autoImplicit false

namespace Formulary

/-- An object keeps its members in order and also keeps members with the same key, because a
repeated key can change what a document means. -/
inductive JsonValue where
  | null
  | boolean (value : Bool)
  /-- A number as it was written. -/
  | number (text : String)
  | string (value : String)
  | array (items : List JsonValue)
  | object (members : List (String × JsonValue))

end Formulary
