set_option autoImplicit false

namespace Formulary.Text

/-- The lines of a text. A line feed ends a line, together with one carriage return right before it;
a carriage return elsewhere is an ordinary character. Text after the last line feed is a line
only if it is not empty. -/
def splitLines : List Char → List (List Char)
  | [] => []
  | c :: cs =>
    if c = '\n' then [] :: splitLines cs
    else if c = '\r' ∧ cs.head? = some '\n' then splitLines cs
    else match splitLines cs with
      | [] => [[c]]
      | line :: more => (c :: line) :: more

def lines (s : String) : List String := (splitLines s.toList).map String.ofList

end Formulary.Text
