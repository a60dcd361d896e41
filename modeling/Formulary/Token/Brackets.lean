import Formulary.Token.Lexer

set_option autoImplicit false

/- Brackets and commas in a list of tokens: the part up to the parenthesis that closes an open one,
the arguments between commas, and the tokens that stand in no bracket.

Round brackets alone decide where a call ends. Inside it, round and square brackets share one
depth, and it is the parser that later insists on matching kinds. -/
namespace Formulary

/-- Adds a token in front of the first of two lists. -/
def consFirst {α : Type} (token : Token) (parts : List Token × α) : List Token × α :=
  (token :: parts.1, parts.2)

/-- The tokens up to the round bracket that closes `depth + 1` open ones, and those after it. -/
def upToClose (depth : Nat) : List Token → Option (List Token × List Token)
  | [] => none
  | token :: rest =>
    match token.kind with
    | .openParen => (upToClose (depth + 1) rest).map (consFirst token)
    | .closeParen =>
      match depth with
      | 0 => some ([], rest)
      | depth + 1 => (upToClose depth rest).map (consFirst token)
    | _ => (upToClose depth rest).map (consFirst token)

/-- What stands between an open round bracket and the one that closes it, and what follows. -/
def enclosed (opening : Token) (rest : List Token) : Except Fault (List Token × List Token) :=
  match upToClose 0 rest with
  | some parts => .ok parts
  | none => .error (.malformed opening.start .unclosedParen)

/-- The index of the round bracket that closes the one at `index`. -/
def matchingParen (tokens : List Token) (index : Nat) : Except Fault Nat :=
  match tokens.drop index with
  | [] => .error (.malformed (endOffset tokens) .unclosedParen)
  | opening :: rest => (enclosed opening rest).map fun parts => index + 1 + parts.1.length

/-- Cuts a list at its commas at depth zero, with the first part apart from the others. `started`
says whether that part already holds a token, `last` where the token before the list stops. -/
def splitFrom (depth : Nat) (started : Bool) (last : Nat) :
    List Token → Except Fault (List Token × List (List Token))
  | [] =>
    if depth ≠ 0 then .error (.malformed last .unclosedBracket)
    else if started then .ok ([], [])
    else .error (.malformed last .emptyArgument)
  | token :: rest =>
    if token.kind.isOpening then
      (splitFrom (depth + 1) true token.stop rest).map (consFirst token)
    else if token.kind.isClosing then
      match depth with
      | 0 => .error (.malformed token.start .strayClosing)
      | depth + 1 => (splitFrom depth true token.stop rest).map (consFirst token)
    else if token.isComma ∧ depth = 0 then
      if started then
        (splitFrom 0 false token.stop rest).map fun parts => ([], parts.1 :: parts.2)
      else .error (.malformed token.start .emptyArgument)
    else (splitFrom depth true token.stop rest).map (consFirst token)

/-- The arguments between commas at depth zero. No tokens are no arguments; otherwise every
argument holds a token and its brackets balance. -/
def splitArguments (tokens : List Token) : Except Fault (List (List Token)) :=
  match tokens with
  | [] => .ok []
  | tokens => (splitFrom 0 false 0 tokens).map fun parts => parts.1 :: parts.2

def topLevelFrom (selects : Token → Bool) (depth index : Nat) : List Token → List Nat
  | [] => []
  | token :: rest =>
    if token.kind.isOpening then topLevelFrom selects (depth + 1) (index + 1) rest
    else if token.kind.isClosing then topLevelFrom selects (depth - 1) (index + 1) rest
    else if depth = 0 ∧ selects token then index :: topLevelFrom selects 0 (index + 1) rest
    else topLevelFrom selects depth (index + 1) rest

/-- The indexes of the selected tokens that stand in no bracket. A closing bracket without an
open one leaves the depth at zero. -/
def topLevel (selects : Token → Bool) (tokens : List Token) : List Nat :=
  topLevelFrom selects 0 0 tokens

/-- The text of the formula from the first token to the last. -/
def sourceText (source : List Char) (tokens : List Token) : String :=
  match tokens with
  | [] => ""
  | first :: rest => Text.slice source first.start (endOffset (first :: rest))

/-- The texts of the arguments in a text. -/
def argumentTexts (source : String) : Except Fault (List String) := do
  let tokens ← tokenize source
  let arguments ← splitArguments tokens
  return arguments.map (sourceText source.toList)

theorem upToClose_shorter {depth : Nat} {tokens inside rest : List Token}
    (found : upToClose depth tokens = some (inside, rest)) : rest.length < tokens.length := by
  fun_induction upToClose depth tokens generalizing inside rest with
  | case1 => contradiction
  | case3 =>
    obtain ⟨-, rfl⟩ := Prod.mk.inj (Option.some.inj found)
    simp
  | _ =>
    rename_i ih
    obtain ⟨⟨body, after⟩, inner, same⟩ := Option.map_eq_some_iff.1 found
    obtain ⟨-, rfl⟩ := Prod.mk.inj same
    have := ih inner
    simp only [List.length_cons]
    omega

theorem enclosed_shorter {opening : Token} {tokens inside rest : List Token}
    (found : enclosed opening tokens = .ok (inside, rest)) : rest.length < tokens.length := by
  unfold enclosed at found
  split at found
  · rename_i parts closed
    obtain rfl := Except.ok.inj found
    exact upToClose_shorter closed
  · contradiction

end Formulary
