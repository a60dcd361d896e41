import Formulary.Proofs.Operators

set_option autoImplicit false

/- How the host of the generated code reads arithmetic: the lexemes of a text, and a grammar from
sums down to operands in which a power binds tighter than a sign on its left and looser than one on
its right. No text is read in two ways (`Host.Reads.unique`). -/
namespace Formulary

/-- The operations of arithmetic. -/
inductive Operation where
  | add
  | subtract
  | multiply
  | power
  deriving DecidableEq, Repr

/-- What arithmetic stands for, whatever brackets it is written with. -/
inductive Arith where
  | literal (digits : String)
  | field (name : String)
  | negate (operand : Arith)
  | binary (op : Operation) (left right : Arith)
  deriving DecidableEq, Repr

namespace Host

inductive Lexeme where
  /-- A numeral or a name with the members it goes through. -/
  | word (spelled : List Char)
  | plus
  | minus
  | times
  | power
  | opening
  | closing
  | gap
  | other (c : Char)
  deriving DecidableEq, Repr

/-- The lexeme that a character is by itself. -/
def mark : Char → Lexeme
  | '+' => .plus
  | '-' => .minus
  | '(' => .opening
  | ')' => .closing
  | ' ' => .gap
  | c => .other c

def isWordPart (c : Char) : Bool := c.isAlphanum || c == '_' || c == '.'

/-- One more character in front of lexemes. It belongs to the word that it touches, and two stars
are one lexeme. -/
def push (c : Char) (lexemes : List Lexeme) : List Lexeme :=
  if isWordPart c then
    match lexemes with
    | .word spelled :: rest => .word (c :: spelled) :: rest
    | _ => .word [c] :: lexemes
  else if c = '*' then
    match lexemes with
    | .times :: rest => .power :: rest
    | _ => .times :: lexemes
  else mark c :: lexemes

def split (cs : List Char) : List Lexeme := cs.foldr push []

/-- The lexemes of a text, without the gaps between them. -/
def lexemes (text : String) : List Lexeme := (split text.toList).filter (· != .gap)

/-- What a word stands for: a number, or a member of the entity. -/
def operand? (spelled : List Char) : Option Arith :=
  if spelled.all Char.isDigit then some (.literal (String.ofList spelled))
  else
    match spelled with
    | 's' :: 'e' :: 'l' :: 'f' :: '.' :: name =>
      if name.contains '.' then none else some (.field (String.ofList name))
    | _ => none

/-- The levels of the grammar, from the loosest operator to the tightest. -/
inductive Level where
  | sum
  | term
  | factor
  | power
  | primary
  deriving DecidableEq, Repr

inductive Reads : Level → List Lexeme → Arith → Prop where
  | operand {spelled : List Char} {arith : Arith} (known : operand? spelled = some arith) :
      Reads .primary [.word spelled] arith
  | group {inside : List Lexeme} {arith : Arith} (sum : Reads .sum inside arith) :
      Reads .primary (.opening :: (inside ++ [.closing])) arith
  | base {lexemes : List Lexeme} {arith : Arith} (primary : Reads .primary lexemes arith) :
      Reads .power lexemes arith
  | raised {before behind : List Lexeme} {left right : Arith}
      (base : Reads .primary before left) (exponent : Reads .factor behind right) :
      Reads .power (before ++ .power :: behind) (.binary .power left right)
  | unsigned {lexemes : List Lexeme} {arith : Arith} (power : Reads .power lexemes arith) :
      Reads .factor lexemes arith
  | negated {lexemes : List Lexeme} {arith : Arith} (factor : Reads .factor lexemes arith) :
      Reads .factor (.minus :: lexemes) (.negate arith)
  | factor {lexemes : List Lexeme} {arith : Arith} (factor : Reads .factor lexemes arith) :
      Reads .term lexemes arith
  | times {before behind : List Lexeme} {left right : Arith}
      (first : Reads .term before left) (second : Reads .factor behind right) :
      Reads .term (before ++ .times :: behind) (.binary .multiply left right)
  | term {lexemes : List Lexeme} {arith : Arith} (term : Reads .term lexemes arith) :
      Reads .sum lexemes arith
  | plus {before behind : List Lexeme} {left right : Arith}
      (first : Reads .sum before left) (second : Reads .term behind right) :
      Reads .sum (before ++ .plus :: behind) (.binary .add left right)
  | minus {before behind : List Lexeme} {left right : Arith}
      (first : Reads .sum before left) (second : Reads .term behind right) :
      Reads .sum (before ++ .minus :: behind) (.binary .subtract left right)

/-- The host reads a text as arithmetic. -/
def ReadsText (text : String) (arith : Arith) : Prop := Reads .sum (lexemes text) arith

end Host

/-- The operation that an operator of formulas is. -/
def Operation.ofBinary? : BinaryOp → Option Operation
  | .add => some .add
  | .subtract => some .subtract
  | .multiply => some .multiply
  | .power => some .power
  | _ => none

/-- An operator of formulas between arithmetic, if it is an operation. -/
def Arith.binary? (op : BinaryOp) (left right : Option Arith) : Option Arith := do
  return .binary (← Operation.ofBinary? op) (← left) (← right)

theorem Arith.binary?_eq_some {op : BinaryOp} {left right : Option Arith} {arith : Arith} :
    Arith.binary? op left right = some arith ↔
      ∃ operation before behind, Operation.ofBinary? op = some operation ∧ left = some before ∧
        right = some behind ∧ arith = .binary operation before behind := by
  unfold Arith.binary?
  cases Operation.ofBinary? op <;> cases left <;> cases right <;> simp [eq_comm]

/-- The arithmetic that a tree stands for, by what its operands stand for. -/
def Operators.Tree.arith? (operand? : Operators.Tree → Option Arith) :
    Operators.Tree → Option Arith
  | .group inside => inside.arith? operand?
  | .minus operand => (operand.arith? operand?).map .negate
  | .binary op left right => Arith.binary? op (left.arith? operand?) (right.arith? operand?)
  | .applied op left right => Arith.binary? op (left.arith? operand?) (right.arith? operand?)
  | tree => operand? tree

namespace Host

/-- The token of formulas in the place of a lexeme. -/
def Lexeme.token (lexeme : Lexeme) : Token :=
  match lexeme with
  | .word spelled => ⟨.number (String.ofList spelled), 0, 0⟩
  | .plus => ⟨.plus, 0, 0⟩
  | .minus => ⟨.minus, 0, 0⟩
  | .times => ⟨.star, 0, 0⟩
  | .power => ⟨.caret, 0, 0⟩
  | .opening => ⟨.openParen, 0, 0⟩
  | .closing => ⟨.closeParen, 0, 0⟩
  | .gap => ⟨.comma, 0, 0⟩
  | .other _ => ⟨.comma, 0, 0⟩

def Level.own : Level → Operators.Level
  | .sum => .loop .sum
  | .term => .loop .product
  | .factor => .signed
  | .power => .power
  | .primary => .primary

/-- What an operand of a formula stands for if it was a word of the host. -/
def wordOperand? : Operators.Tree → Option Arith
  | .number digits => operand? digits.toList
  | _ => none

open Operators in
/-- Lexemes, as tokens of formulas, derive a tree that stands for arithmetic. -/
def DerivesAs (level : Operators.Level) (lexemes : List Lexeme) (arith : Arith) : Prop :=
  ∃ tree, Derives false (.whole level tree) (lexemes.map Lexeme.token) ∧
    tree.arith? wordOperand? = some arith

open Operators in
/-- An operation and an operand behind arithmetic of its level. -/
theorem DerivesAs.snoc {loop : Loop} {before behind : List Lexeme} {left right : Arith}
    {lexeme : Lexeme} {op : BinaryOp} {operation : Operation}
    (first : DerivesAs (.loop loop) before left)
    (found : loop.operator? lexeme.token.kind = some op)
    (known : Operation.ofBinary? op = some operation)
    (second : DerivesAs loop.operand behind right) :
    DerivesAs (.loop loop) (before ++ lexeme :: behind) (.binary operation left right) := by
  obtain ⟨leftTree, derivesLeft, meansLeft⟩ := first
  obtain ⟨rightTree, derivesRight, meansRight⟩ := second
  refine ⟨.binary op leftTree rightTree, ?_, ?_⟩
  · rw [List.map_append, List.map_cons]
    exact derivesLeft.snoc found derivesRight
  · exact Arith.binary?_eq_some.2 ⟨_, _, _, known, meansLeft, meansRight, rfl⟩

open Operators in
/-- The host's grammar is the part of the grammar of formulas that arithmetic needs. -/
theorem Reads.derivesAs {level : Level} {lexemes : List Lexeme} {arith : Arith}
    (reads : Reads level lexemes arith) : DerivesAs level.own lexemes arith := by
  induction reads with
  | @operand spelled arith known =>
    refine ⟨.number (String.ofList spelled), .atom rfl, ?_⟩
    simpa [Tree.arith?, wordOperand?] using known
  | group sum ih =>
    obtain ⟨tree, derives, means⟩ := ih
    have whole : Derives false (.whole (.loop .disjunction) tree) _ :=
      .single (.single (.positive (.alone derives)))
    refine ⟨.group tree, ?_, means⟩
    rw [List.map_cons, List.map_append]
    exact .group rfl rfl whole
  | base primary ih =>
    obtain ⟨tree, derives, means⟩ := ih
    exact ⟨tree, .base derives, means⟩
  | raised base exponent ihBase ihExponent =>
    obtain ⟨left, first, meansLeft⟩ := ihBase
    obtain ⟨right, second, meansRight⟩ := ihExponent
    refine ⟨.binary .power left right, ?_, ?_⟩
    · rw [List.map_append, List.map_cons]
      exact .raised first rfl second
    · exact Arith.binary?_eq_some.2 ⟨_, _, _, rfl, meansLeft, meansRight, rfl⟩
  | unsigned power ih =>
    obtain ⟨tree, derives, means⟩ := ih
    exact ⟨tree, .unsigned derives, means⟩
  | negated factor ih =>
    obtain ⟨tree, derives, means⟩ := ih
    refine ⟨.minus tree, .minus rfl derives, ?_⟩
    simp [Tree.arith?, means]
  | factor factor ih =>
    obtain ⟨tree, derives, means⟩ := ih
    exact ⟨tree, .single derives, means⟩
  | times first second ihFirst ihSecond => exact DerivesAs.snoc ihFirst rfl rfl ihSecond
  | term term ih =>
    obtain ⟨tree, derives, means⟩ := ih
    exact ⟨tree, .single derives, means⟩
  | plus first second ihFirst ihSecond => exact DerivesAs.snoc ihFirst rfl rfl ihSecond
  | minus first second ihFirst ihSecond => exact DerivesAs.snoc ihFirst rfl rfl ihSecond

/-- Lexemes have one reading at most. -/
theorem Reads.unique {level : Level} {lexemes : List Lexeme} {arith other : Arith}
    (one : Reads level lexemes arith) (two : Reads level lexemes other) : arith = other := by
  obtain ⟨tree, derives, means⟩ := one.derivesAs
  obtain ⟨same, derivesSame, meansSame⟩ := two.derivesAs
  obtain rfl := derives.unique derivesSame
  rw [means] at meansSame
  exact Option.some.inj meansSame

end Host

end Formulary
