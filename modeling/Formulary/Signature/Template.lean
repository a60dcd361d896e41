import Formulary.Text.Numeral

set_option autoImplicit false

namespace Formulary

inductive Piece where
  | literal (text : String)
  | hole (key : String)
  deriving DecidableEq, Repr

/-- Code templates. A template is a list of pieces, each either literal text or a hole with a key.
Written down, a hole is its key in braces; a brace that is never closed is literal text, like
everything after it. Filling a template puts one text into each hole and looks at no text twice. -/
abbrev Template := List Piece

/-- What a key asks for. -/
inductive Slot where
  /-- Every argument, with commas between them. -/
  | all
  | argument (index : Nat)
  | named (key : String)
  deriving DecidableEq, Repr

namespace Slot

def ofKey (key : String) : Slot :=
  if key = "*" then .all
  else match Text.boundedNatural? Text.maxWord key.toList with
    | some index => .argument index
    | none => .named key

/-- The text for a slot, empty if there is no such argument or name. -/
def fill (arguments : List String) (named : List (String × String)) : Slot → String
  | .all => ", ".intercalate arguments
  | .argument index => (arguments[index]?).getD ""
  | .named key => (named.lookup key).getD ""

end Slot

namespace Piece

def fill (arguments : List String) (named : List (String × String)) : Piece → String
  | .literal text => text
  | .hole key => (Slot.ofKey key).fill arguments named

def toText : Piece → String
  | .literal text => text
  | .hole key => "\x7b" ++ key ++ "\x7d"

end Piece

namespace Template

def fill (arguments : List String) (named : List (String × String)) : Template → String
  | [] => ""
  | piece :: rest => piece.fill arguments named ++ fill arguments named rest

def toText : Template → String
  | [] => ""
  | piece :: rest => piece.toText ++ toText rest

private theorem length_dropWhile_le {α : Type} (test : α → Bool) (xs : List α) :
    (xs.dropWhile test).length ≤ xs.length := (List.dropWhile_sublist test).length_le

/-- The pieces of a written template. -/
def ofChars (cs : List Char) : Template :=
  let text := String.ofList (cs.takeWhile (· ≠ '\x7b'))
  match _ : cs.dropWhile (· ≠ '\x7b') with
  | [] => [.literal text]
  | brace :: after =>
    match _ : after.dropWhile (· ≠ '\x7d') with
    | [] => [.literal text, .literal (String.ofList (brace :: after))]
    | _ :: rest =>
      .literal text :: .hole (String.ofList (after.takeWhile (· ≠ '\x7d'))) :: ofChars rest
termination_by cs.length
decreasing_by
  have outer := length_dropWhile_le (· ≠ '\x7b') cs
  have inner := length_dropWhile_le (· ≠ '\x7d') after
  rw [‹List.dropWhile _ cs = _›] at outer
  rw [‹List.dropWhile _ after = _›] at inner
  simp only [List.length_cons] at outer inner
  omega

def ofText (text : String) : Template := ofChars text.toList

end Template

end Formulary
