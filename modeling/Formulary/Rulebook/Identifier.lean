set_option autoImplicit false

namespace Formulary

/-- The reserved words of Python. -/
def reservedWords : List String :=
  ["False", "None", "True", "and", "as", "assert", "async", "await", "break", "class", "continue",
    "def", "del", "elif", "else", "except", "finally", "for", "from", "global", "if", "import",
    "in", "is", "lambda", "nonlocal", "not", "or", "pass", "raise", "return", "try", "while",
    "with", "yield"]

/-- A letter or underscore, then letters, digits and underscores, all of them ASCII. -/
def isNameText : List Char → Bool
  | [] => false
  | c :: cs => (c.isAlpha || c == '_') && cs.all fun c => c.isAlphanum || c == '_'

/-- Whether a name may stand in generated code. -/
def isIdentifier (name : String) : Bool :=
  isNameText name.toList && !reservedWords.contains name

end Formulary
