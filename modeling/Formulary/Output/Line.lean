import Formulary.Text.Blank
import Formulary.Text.Lines

set_option autoImplicit false

namespace Formulary

/-- A line of code with its depth of indentation. -/
structure Line where
  depth : Nat
  text : String
  deriving DecidableEq, Repr

namespace Line

def blank : Line := ⟨0, ""⟩

/-- A level of indentation is four spaces. -/
def render (line : Line) : String :=
  String.ofList (List.replicate (4 * line.depth) ' ') ++ line.text

end Line

/-- A text on one line: its lines, each without blanks around it, with a space between them. -/
def oneLine (text : String) : String := " ".intercalate ((Text.lines text).map Text.trim)

/-- Escapes backslashes and runs of three quotes. -/
def escapeQuoted : List Char → List Char
  | [] => []
  | '"' :: '"' :: '"' :: rest => '\\' :: '"' :: '\\' :: '"' :: '\\' :: '"' :: escapeQuoted rest
  | c :: rest => if c = '\\' then '\\' :: '\\' :: escapeQuoted rest else c :: escapeQuoted rest

/-- A text between triple quotes. -/
def quoted (text : String) : String := String.ofList (escapeQuoted text.toList)

def tripleQuote : String := "\"\"\""

end Formulary
