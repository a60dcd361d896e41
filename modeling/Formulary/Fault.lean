import Formulary.Text.Numeral
import Formulary.Token.Basic

set_option autoImplicit false

namespace Formulary

/-- Deepest nesting of expressions in one formula: the formula itself and, inside it, groups,
arguments, clauses, prefix operators and exponents. -/
def maxNesting : Nat := 64

/-- The largest literal axis, either way, that is written out as explicit indexing. -/
def maxLiteralAxis : Nat := 32

/-- What breaks the grammar of formulas. -/
inductive SyntaxCause where
  | unterminatedString (quote : Char)
  | strayCharacter (c : Char)
  | unexpectedToken (kind : Kind)
  | unexpectedEnd
  | emptyExpression
  | missing (wanted : Kind) (found : Option Kind)
  | missingMember
  | nestedTooDeep
  | ifWithoutParen
  | ifWithoutCondition
  | missingElse
  | unclosedParen
  | strayClosing
  | unclosedBracket
  | emptyArgument
  deriving DecidableEq, Repr

/-- What is wrong with the clauses of an aggregation. -/
inductive ClauseCause where
  | comma (offset : Nat)
  | secondWhere
  | secondArrow
  | arrowBeforeWhere
  | emptyPredicate
  | emptyProjection
  | missingArrow
  | parameterNotName
  | emptyKey
  | arrowInSource
  | keyedShape
  | missingCount
  | missingKey
  | memberNotName (found : String)
  deriving DecidableEq, Repr

/-- What is wrong with the keyword arguments of a call. -/
inductive KeywordCause where
  | inPositional (key : String)
  | unknownKey (key : String)
  | axisExpected (found : String)
  | axisOrIndexExpected (found : String)
  | duplicate (key : String)
  | missingValue (key : String)
  | bothRequired
  | axisOutOfRange (axis : Int)
  deriving DecidableEq, Repr

/-- Why a formula cannot be compiled. -/
inductive Fault where
  | unknownFunction (name : String)
  | arityMismatch (name : String) (least most got : Nat)
  | keywordArgument (function : String) (cause : KeywordCause)
  | aggregationClause (function : String) (cause : ClauseCause)
  | multiDotReference (text : String)
  | joinCondition (text : String)
  /-- A breach of the grammar at a byte position of the formula. -/
  | malformed (position : Nat) (cause : SyntaxCause)
  deriving DecidableEq, Repr

namespace SyntaxCause

def message : SyntaxCause → String
  | unterminatedString quote => "unterminated string literal starting with " ++ quote.toString
  | strayCharacter c => "unexpected character '" ++ c.toString ++ "'"
  | unexpectedToken kind => "unexpected " ++ kind.describe
  | unexpectedEnd => "unexpected end of formula"
  | emptyExpression => "expected an expression"
  | missing wanted none => "expected " ++ wanted.describe
  | missing wanted (some found) =>
    "expected " ++ wanted.describe ++ ", found " ++ found.describe
  | missingMember => "expected a member name after '.'"
  | nestedTooDeep => "formula is nested more than " ++ toString maxNesting ++ " levels deep"
  | ifWithoutParen => "expected '(' after IF"
  | ifWithoutCondition => "IF without a condition"
  | missingElse => "expected ELSE"
  | unclosedParen => "unbalanced '('"
  | strayClosing => "unbalanced closing bracket"
  | unclosedBracket => "unclosed bracket"
  | emptyArgument => "empty argument"

end SyntaxCause

namespace ClauseCause

def message : ClauseCause → String
  | comma offset => "unexpected ',' at offset " ++ toString offset
  | secondWhere => "only one WHERE is allowed"
  | secondArrow => "only one '=>' is allowed"
  | arrowBeforeWhere => "WHERE must come before '=>'"
  | emptyPredicate => "WHERE without a predicate"
  | emptyProjection => "'=>' without a projection"
  | missingArrow => "missing required '=>'"
  | parameterNotName => "lambda parameter must be a name"
  | emptyKey => "'=>' without a key"
  | arrowInSource => "'=>' belongs to the key, after the collection"
  | keyedShape => "expected [collection [WHERE predicate],] param => key"
  | missingCount => "missing count"
  | missingKey => "missing param => key"
  | memberNotName found => "expected a member name, found '" ++ found ++ "'"

end ClauseCause

namespace KeywordCause

def message : KeywordCause → String
  | inPositional key => "unexpected keyword argument '" ++ key ++ "'"
  | unknownKey key => "unexpected keyword '" ++ key ++ "'"
  | axisExpected found => "expected axis=<n>, found '" ++ found ++ "'"
  | axisOrIndexExpected found => "expected axis=<n> or index=<i>, found '" ++ found ++ "'"
  | duplicate key => "duplicate keyword '" ++ key ++ "'"
  | missingValue key => "missing value for " ++ key ++ "="
  | bothRequired => "both axis= and index= are required"
  | axisOutOfRange axis =>
    "axis " ++ toString axis ++ " is out of range (at most " ++ toString maxLiteralAxis ++
      " either way)"

end KeywordCause

namespace Fault

/-- The accepted argument counts in words. The largest machine word stands for no upper bound. -/
def countsText (least most : Nat) : String :=
  if least = most then toString least
  else if most = Text.maxWord then "at least " ++ toString least
  else toString least ++ ".." ++ toString most

def keywordText (function detail : String) : String :=
  "malformed keyword argument in " ++ function ++ ": " ++ detail

def clauseText (function detail : String) : String :=
  "malformed " ++ function ++ " clause: " ++ detail

def syntaxText (position : Nat) (detail : String) : String :=
  "syntax error at offset " ++ toString position ++ ": " ++ detail

def message : Fault → String
  | unknownFunction name => "unknown function " ++ name
  | arityMismatch name least most got =>
    name ++ " expects " ++ countsText least most ++ " args, got " ++ toString got
  | keywordArgument function cause => keywordText function cause.message
  | aggregationClause function cause => clauseText function cause.message
  | multiDotReference text =>
    "unsupported multi-dot reference '" ++ text ++
      "': only one level of sub-field projection is supported"
  | joinCondition text =>
    "unsupported join condition '" ++ text ++ "': expected this.<collection>.<field>"
  | malformed position cause => syntaxText position cause.message

end Fault

end Formulary
