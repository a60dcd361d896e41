import Formulary.Proofs.Reading
import Formulary.Proofs.Scan

set_option autoImplicit false

namespace Formulary

/-- One side of a bracket. -/
inductive BracketSide where
  | opening (bracket : Bracket)
  | closing (bracket : Bracket)
  deriving DecidableEq, Repr

/-- Every bracket is closed by one of its own kind, and what stands between the two nests too. -/
inductive Nested : List BracketSide → Prop where
  | nil : Nested []
  | pair {bracket : Bracket} {inside behind : List BracketSide} (within : Nested inside)
      (others : Nested behind) :
      Nested (.opening bracket :: (inside ++ .closing bracket :: behind))

def Kind.bracketSide? : Kind → Option BracketSide
  | .openParen => some (.opening .round)
  | .closeParen => some (.closing .round)
  | .openBracket => some (.opening .square)
  | .closeBracket => some (.closing .square)
  | _ => none

/-- The brackets among tokens, in their order. -/
def brackets (tokens : List Token) : List BracketSide :=
  (tokens.map Token.kind).filterMap Kind.bracketSide?

theorem brackets_append (first second : List Token) :
    brackets (first ++ second) = brackets first ++ brackets second := by
  rw [brackets, List.map_append, List.filterMap_append]
  rfl

theorem brackets_cons_of_isInner {commas : Bool} {token : Token} {tokens : List Token}
    (inner : token.kind.isInner commas = true) : brackets (token :: tokens) = brackets tokens := by
  have noSide : token.kind.bracketSide? = none := by
    cases kind : token.kind <;>
      simp_all [Kind.isInner, Kind.isOpening, Kind.isClosing, Kind.bracketSide?]
  rw [brackets, List.map_cons, List.filterMap_cons_none noSide]
  rfl

theorem brackets_cons {token : Token} {tokens : List Token} {side : BracketSide}
    (known : token.kind.bracketSide? = some side) :
    brackets (token :: tokens) = side :: brackets tokens := by
  rw [brackets, List.map_cons, List.filterMap_cons_some known]
  rfl

namespace Closed

variable {commas : Bool} {opening closing token : Token} {inside tokens : List Token}

theorem one (inner : token.kind.isInner commas = true) : Closed commas [token] := .token inner .nil

theorem enclosed (opens : opening.kind = .openParen) (closes : closing.kind = .closeParen)
    (within : Closed true inside) : Closed commas (opening :: (inside ++ [closing])) :=
  .brackets opens closes within .nil

end Closed

theorem nested_of_closed {commas : Bool} {tokens : List Token} (closed : Closed commas tokens) :
    Nested (brackets tokens) := by
  induction closed with
  | nil => exact .nil
  | token inner others ih =>
    rw [brackets_cons_of_isInner inner]
    exact ih
  | @brackets commas opening closing inside tokens opens closes within others ihWithin ihOthers =>
    rw [brackets_cons (congrArg Kind.bracketSide? opens), brackets_append,
      brackets_cons (congrArg Kind.bracketSide? closes)]
    exact .pair ihWithin ihOthers
  | @square commas opening closing inside tokens opens closes within others ihWithin ihOthers =>
    rw [brackets_cons (congrArg Kind.bracketSide? opens), brackets_append,
      brackets_cons (congrArg Kind.bracketSide? closes)]
    exact .pair ihWithin ihOthers

/-- Tokens that close, up to the bracket behind them. -/
theorem upToClose_of_closed {inside rest : List Token} {closing : Token}
    (within : Closed true inside) (closes : closing.kind = .closeParen) :
    upToClose 0 (inside ++ closing :: rest) = some (inside, rest) := by
  rw [upToClose_closed within]
  simp [upToClose, closes]

/-- A place in a list with a known token: it is on one side of the token or on the other. -/
private theorem split_around {inside tokens before rest : List Token} {closing opening : Token}
    (apart : closing ≠ opening)
    (whole : inside ++ closing :: tokens = before ++ opening :: rest) :
    (∃ after, inside = before ++ opening :: after ∧ rest = after ++ closing :: tokens) ∨
      ∃ between, tokens = between ++ opening :: rest := by
  rcases List.append_eq_append_iff.1 whole with ⟨between, -, same⟩ | ⟨after, rfl, same⟩
  · rcases List.cons_eq_append_iff.1 same with ⟨-, same⟩ | ⟨between, -, rfl⟩
    · exact absurd (List.cons.inj same).1.symm apart
    · exact .inr ⟨between, rfl⟩
  · rcases List.cons_eq_append_iff.1 same with ⟨-, same⟩ | ⟨after, rfl, rfl⟩
    · exact absurd (List.cons.inj same).1 apart
    · exact .inl ⟨after, rfl, rfl⟩

/-- Behind an open round bracket stand tokens that close, and then the bracket that closes it. -/
theorem Closed.partner {commas : Bool} {tokens before rest : List Token} {opening : Token}
    (closed : Closed commas tokens) (whole : tokens = before ++ opening :: rest)
    (opens : opening.kind = .openParen) :
    ∃ inside closing after, rest = inside ++ closing :: after ∧ closing.kind = .closeParen ∧
      Closed true inside := by
  induction closed generalizing before rest with
  | nil => simp at whole
  | @token commas token tokens inner others ih =>
    rcases List.cons_eq_append_iff.1 whole with ⟨-, same⟩ | ⟨between, -, rfl⟩
    · obtain ⟨rfl, -⟩ := List.cons.inj same
      simp [Kind.isInner, opens, Kind.isOpening] at inner
    · exact ih rfl
  | @brackets commas first closing inside tokens begins closes within others ihWithin ihOthers =>
    have apart : closing ≠ opening := by
      rintro rfl
      rw [opens] at closes
      cases closes
    rcases List.cons_eq_append_iff.1 whole with ⟨-, same⟩ | ⟨between, -, same⟩
    · obtain ⟨-, rfl⟩ := List.cons.inj same
      exact ⟨inside, closing, tokens, rfl, closes, within⟩
    · rcases split_around apart same with ⟨after, rfl, rfl⟩ | ⟨between, rfl⟩
      · obtain ⟨body, last, behind, rfl, kind, closed⟩ := ihWithin rfl
        exact ⟨body, last, behind ++ closing :: tokens, by simp, kind, closed⟩
      · exact ihOthers rfl
  | @square commas first closing inside tokens begins closes within others ihWithin ihOthers =>
    have apart : closing ≠ opening := by
      rintro rfl
      rw [opens] at closes
      cases closes
    rcases List.cons_eq_append_iff.1 whole with ⟨-, same⟩ | ⟨between, -, same⟩
    · obtain ⟨rfl, -⟩ := List.cons.inj same
      rw [opens] at begins
      cases begins
    · rcases split_around apart same with ⟨after, rfl, rfl⟩ | ⟨between, rfl⟩
      · obtain ⟨body, last, behind, rfl, kind, closed⟩ := ihWithin rfl
        exact ⟨body, last, behind ++ closing :: tokens, by simp, kind, closed⟩
      · exact ihOthers rfl

theorem matchingParen_of_closed {before inside after : List Token} {opening closing : Token}
    (within : Closed true inside) (closes : closing.kind = .closeParen) :
    matchingParen (before ++ opening :: (inside ++ closing :: after)) before.length =
      .ok (before.length + 1 + inside.length) := by
  rw [matchingParen, List.drop_left]
  simp only [enclosed, upToClose_of_closed within closes]
  rfl

/-- Whether the tokens of such a reading can have commas outside brackets. -/
def Reading.hasCommas : Reading → Bool
  | .items [] => false
  | .items [_] => false
  | .items _ => true
  | .collection _ => false
  | .clause _ _ => false
  | .source _ _ => true
  | .key _ _ => false
  | .keyword _ _ => true
  | .arguments _ _ => true

theorem isInner_of_eq {commas : Bool} {kind other : Kind} (same : kind = other)
    (inner : other.isInner commas = true) : kind.isInner commas = true := same ▸ inner

theorem isInner_of_infixOperator? {kind : Kind} {op : BinaryOp}
    (known : infixOperator? kind = some op) : kind.isInner false = true := by
  cases kind with
  | keyword word => cases word <;> rfl
  | _ => first | rfl | cases known

theorem isInner_of_calledName? {kind : Kind} {name : String}
    (known : calledName? kind = some name) : kind.isInner false = true := by
  cases kind with
  | keyword word => cases word <;> rfl
  | _ => first | rfl | cases known

theorem closed_of_forall {commas : Bool} {tokens : List Token}
    (inner : ∀ token ∈ tokens, token.kind.isInner commas = true) : Closed commas tokens := by
  induction tokens with
  | nil => exact .nil
  | cons token tokens ih =>
    exact .token (inner token (by simp)) (ih fun other member => inner other (by simp [member]))

theorem closed_of_referenceNames? {tokens : List Token} {names : List String}
    (dotted : referenceNames? tokens = some names) : Closed false tokens := by
  apply closed_of_forall
  intro token member
  rcases (referenceNames?_tokens dotted).1 token member with ⟨name, named⟩ | mark
  · rw [named]
    rfl
  · cases kind : token.kind with
    | dot => rfl
    | arrow => rfl
    | _ =>
      rw [kind] at mark
      cases mark

/-- Whatever the rules read closes its brackets, and has commas outside them only between items
and between arguments. -/
theorem closed_of_reads {scope : Scope} {tokens : List Token} {reading : Reading}
    (reads : Reads scope tokens reading) : Closed reading.hasCommas tokens := by
  induction reads with
  | number kind | text kind => exact .one (isInner_of_eq kind rfl)
  | literal kind known => exact .one (isInner_of_eq kind rfl)
  | reference dotted resolved => exact closed_of_referenceNames? dotted
  | group opens closes inside ih => exact .enclosed opens closes ih.weaken
  | tuple opens closes inside several ih => exact .enclosed opens closes ih.weaken
  | list opens closes inside ih => exact .square opens closes ih.weaken .nil
  | nothing => exact .nil
  | more first kind others ihFirst ihOthers =>
    exact ihFirst.weaken.append (.token (isInner_of_eq kind rfl) ihOthers.weaken)
  | not kind operand ih | negate kind operand ih | positive kind operand ih =>
    exact .token (isInner_of_eq kind rfl) ih
  | binary kind first second ihFirst ihSecond =>
    exact ihFirst.append (.token (isInner_of_infixOperator? kind) ihSecond)
  | conditional isIf opens closes isThen isElse test first second ihTest ihFirst ihSecond =>
    have branches := ihFirst.append (.token (isInner_of_eq isElse rfl) ihSecond)
    refine .token (isInner_of_eq isIf rfl) (.brackets opens closes ihTest.weaken ?_)
    exact .token (isInner_of_eq isThen rfl) branches
  | call kind opens closes inside ih =>
    exact .token (isInner_of_calledName? kind) (.enclosed opens closes ih)
  | positional found _ shape arity parts ih => exact ih.weaken
  | overMember found _ shape collection kind named ih =>
    exact ih.weaken.append (.token (isInner_of_eq kind rfl) (.one (isInner_of_eq named rfl)))
  | keyword kind named known equals given ih =>
    refine .token (isInner_of_eq kind rfl) (.token (isInner_of_eq named rfl) ?_)
    exact .token (isInner_of_eq equals rfl) ih.weaken
  | wholeArray found _ shape target ih => exact ih.weaken
  | alongAxis found _ shape target given ihTarget ihGiven => exact ihTarget.weaken.append ihGiven
  | slice found _ shape inRange target along place order ihTarget ihAlong ihPlace =>
    rcases order with rfl | rfl
    · exact ihTarget.weaken.append (ihAlong.append ihPlace)
    · exact ihTarget.weaken.append (ihPlace.append ihAlong)
  | receiver => exact .nil
  | named dotted resolved => exact closed_of_referenceNames? dotted
  | computed given _ ih => exact ih
  | absent => exact .nil
  | @present scope mark token tokens expr kind given ih =>
    exact .token (isInner_of_eq kind (by cases mark <;> rfl)) ih
  | reduce known source test value _ ihSource ihTest ihValue =>
    exact ((ihSource.append ihTest).append ihValue).weaken
  | ownSource => exact .nil
  | givenSource source test kind _ ihSource ihTest =>
    exact (ihSource.append ihTest).weaken.append (.one (isInner_of_eq kind rfl))
  | key named kind body ih =>
    exact .token (isInner_of_eq named rfl) (.token (isInner_of_eq kind rfl) ih)
  | extreme known source chosen ihSource ihChosen => exact ihSource.append ihChosen.weaken
  | top number kind source chosen ihNumber ihSource ihChosen =>
    have keyed := ihSource.append ihChosen.weaken
    exact ihNumber.weaken.append (.token (isInner_of_eq kind rfl) keyed)

namespace Formula

theorem closed_of_compile {formula : String} {fragment : Fragment}
    (success : (compile formula).result = .ok fragment) :
    ∃ tokens, tokenize formula = .ok tokens ∧ Closed false tokens := by
  obtain ⟨expr, parsed, rfl⟩ := compile_eq_ok.1 success
  obtain ⟨tokens, lexed, ⟨rfl, -⟩ | reads⟩ := reads_of_parse parsed
  · exact ⟨[], lexed, .nil⟩
  · exact ⟨tokens, lexed, closed_of_reads reads⟩

/-- The brackets of an accepted formula nest, each closed by one of its own kind, and for every open
round bracket the scan that counts round ones finds the bracket that closes it. -/
theorem compile_nested {formula : String} {fragment : Fragment}
    (success : (compile formula).result = .ok fragment) :
    ∃ tokens, tokenize formula = .ok tokens ∧ Nested (brackets tokens) ∧
      ∀ before opening rest, tokens = before ++ opening :: rest → opening.kind = .openParen →
        ∃ inside closing after, rest = inside ++ closing :: after ∧
          closing.kind = .closeParen ∧ Nested (brackets inside) ∧
          matchingParen tokens before.length = .ok (before.length + 1 + inside.length) := by
  obtain ⟨tokens, lexed, closed⟩ := closed_of_compile success
  refine ⟨tokens, lexed, nested_of_closed closed, ?_⟩
  rintro before opening rest rfl opens
  obtain ⟨inside, closing, after, rfl, closes, within⟩ := closed.partner rfl opens
  exact ⟨inside, closing, after, rfl, closes, nested_of_closed within,
    matchingParen_of_closed within closes⟩

/-- Both kinds of brackets, in a clause and in a key. -/
theorem compile_nested_clauses :
    (compile "MAXBY(xs WHERE (a IN [1, (2)]), p => LEN([p.x, (p)]))").result =
        .ok (.plain
          "max((item for item in self.xs if (item.a in [1, 2])), key=lambda p: len([p.x, p]))") ∧
      ∃ tokens, tokenize "MAXBY(xs WHERE (a IN [1, (2)]), p => LEN([p.x, (p)]))" = .ok tokens ∧
        Nested (brackets tokens) := by
  have success : (compile "MAXBY(xs WHERE (a IN [1, (2)]), p => LEN([p.x, (p)]))").result =
      .ok (.plain
        "max((item for item in self.xs if (item.a in [1, 2])), key=lambda p: len([p.x, p]))") :=
    eq_ok_of_toOption (by decide +kernel)
  obtain ⟨tokens, lexed, nested, -⟩ := compile_nested success
  exact ⟨success, tokens, lexed, nested⟩

end Formula

end Formulary
