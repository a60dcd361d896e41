set_option autoImplicit false

namespace Formulary

/-- The reserved words, recognised in any mix of upper and lower case. -/
inductive Keyword where
  | whereWord
  | ifWord
  | thenWord
  | elseWord
  | andWord
  | orWord
  | notWord
  | inWord
  deriving DecidableEq, Repr

namespace Keyword

def ofWord? (word : String) : Option Keyword :=
  match word.toUpper with
  | "WHERE" => some whereWord
  | "IF" => some ifWord
  | "THEN" => some thenWord
  | "ELSE" => some elseWord
  | "AND" => some andWord
  | "OR" => some orWord
  | "NOT" => some notWord
  | "IN" => some inWord
  | _ => none

def name : Keyword → String
  | whereWord => "Where"
  | ifWord => "If"
  | thenWord => "Then"
  | elseWord => "Else"
  | andWord => "And"
  | orWord => "Or"
  | notWord => "Not"
  | inWord => "In"

end Keyword

/-- What a token is. A string literal keeps its quotes and escapes as they were written. -/
inductive Kind where
  | ident (name : String)
  | keyword (word : Keyword)
  | number (digits : String)
  | string (literal : String)
  | openParen
  | closeParen
  | openBracket
  | closeBracket
  | comma
  | dot
  /-- The arrow `->`, which reaches a member as a dot does. -/
  | arrow
  /-- The arrow `=>`, in front of a projection or a key. -/
  | fatArrow
  | caret
  | plus
  | minus
  | star
  | slash
  | equal
  | equalEqual
  | notEqual
  | less
  | lessEqual
  | greater
  | greaterEqual
  deriving DecidableEq, Repr

namespace Kind

/-- How error messages name a token. -/
def describe : Kind → String
  | ident name => "identifier '" ++ name ++ "'"
  | keyword word => "keyword " ++ word.name
  | number digits => "number " ++ digits
  | string literal => "string " ++ literal
  | openParen => "'('"
  | closeParen => "')'"
  | openBracket => "'['"
  | closeBracket => "']'"
  | comma => "','"
  | dot => "'.'"
  | arrow => "'->'"
  | fatArrow => "'=>'"
  | caret => "'^'"
  | plus => "'+'"
  | minus => "'-'"
  | star => "'*'"
  | slash => "'/'"
  | equal => "'='"
  | equalEqual => "'=='"
  | notEqual => "'!='"
  | less => "'<'"
  | lessEqual => "'<='"
  | greater => "'>'"
  | greaterEqual => "'>='"

def name? : Kind → Option String
  | ident name => some name
  | _ => none

/-- A dot or the arrow that stands for it. -/
def isMemberMark : Kind → Bool
  | dot => true
  | arrow => true
  | _ => false

def isOpening : Kind → Bool
  | openParen => true
  | openBracket => true
  | _ => false

def isClosing : Kind → Bool
  | closeParen => true
  | closeBracket => true
  | _ => false

end Kind

/-- A token that takes the bytes from `start` up to `stop` of the formula. -/
structure Token where
  kind : Kind
  start : Nat
  stop : Nat
  deriving DecidableEq, Repr

namespace Token

def isWhere (token : Token) : Bool := token.kind == .keyword .whereWord

def isFatArrow (token : Token) : Bool := token.kind == .fatArrow

def isComma (token : Token) : Bool := token.kind == .comma

end Token

/-- Where the last token stops, and zero if there is none. -/
def endOffset (tokens : List Token) : Nat := (tokens.getLast?.map Token.stop).getD 0

end Formulary
