import Formulary.Formula.Aggregation

set_option autoImplicit false

namespace Formulary

/-- The part up to a closing bracket, that bracket, and what follows are the whole list. -/
theorem upToClose_append {depth : Nat} {tokens inside rest : List Token}
    (found : upToClose depth tokens = some (inside, rest)) :
    ∃ closing, tokens = inside ++ closing :: rest ∧ closing.kind = .closeParen := by
  fun_induction upToClose depth tokens generalizing inside rest with
  | case1 => contradiction
  | case3 token tokens kind =>
    obtain ⟨rfl, rfl⟩ := Prod.mk.inj (Option.some.inj found)
    exact ⟨token, rfl, kind⟩
  | _ =>
    rename_i ih
    obtain ⟨⟨body, after⟩, inner, same⟩ := Option.map_eq_some_iff.1 found
    obtain ⟨rfl, rfl⟩ := Prod.mk.inj same
    obtain ⟨closing, rfl, kind⟩ := ih inner
    exact ⟨closing, rfl, kind⟩

theorem upToClose_cons {token : Token} {tokens : List Token} (depth : Nat)
    (notOpen : token.kind ≠ .openParen) (notClose : token.kind ≠ .closeParen) :
    upToClose depth (token :: tokens) = (upToClose depth tokens).map (consFirst token) := by
  rw [upToClose.eq_def]
  dsimp only
  split <;> simp_all

/-- What follows the tokens does not move a closing bracket that is found among them. -/
theorem upToClose_extend {depth : Nat} {tokens inside after : List Token} (rest : List Token)
    (found : upToClose depth tokens = some (inside, after)) :
    upToClose depth (tokens ++ rest) = some (inside, after ++ rest) := by
  fun_induction upToClose depth tokens generalizing inside after with
  | case1 => cases found
  | case2 depth token tokens kind ih =>
    obtain ⟨⟨body, tail⟩, inner, same⟩ := Option.map_eq_some_iff.1 found
    cases same
    simp only [List.cons_append, upToClose, kind, ih inner, Option.map_some, consFirst]
  | case3 token tokens kind =>
    cases found
    simp only [List.cons_append, upToClose, kind]
  | case4 token tokens kind depth ih =>
    obtain ⟨⟨body, tail⟩, inner, same⟩ := Option.map_eq_some_iff.1 found
    cases same
    simp only [List.cons_append, upToClose, kind, ih inner, Option.map_some, consFirst]
  | case5 depth token tokens notOpen notClose ih =>
    obtain ⟨⟨body, tail⟩, inner, same⟩ := Option.map_eq_some_iff.1 found
    cases same
    rw [List.cons_append, upToClose_cons depth notOpen notClose, ih inner]
    rfl

/-- The list is these parts with commas between them. -/
inductive Joined : List (List Token) → List Token → Prop where
  | none : Joined [] []
  | one {part : List Token} : Joined [part] part
  | more {part next : List Token} {parts : List (List Token)} {comma : Token} {rest : List Token}
      (kind : comma.kind = .comma) (others : Joined (next :: parts) rest) :
      Joined (part :: next :: parts) (part ++ comma :: rest)

theorem Joined.cons_first {token : Token} {part : List Token} {parts : List (List Token)}
    {tokens : List Token} (joined : Joined (part :: parts) tokens) :
    Joined ((token :: part) :: parts) (token :: tokens) := by
  cases joined with
  | one => exact .one
  | more kind others => exact .more kind others

theorem consFirst_eq_ok {token : Token} {first : List Token} {others : List (List Token)}
    {parts : Except Fault (List Token × List (List Token))}
    (found : parts.map (consFirst token) = .ok (first, others)) :
    ∃ part, parts = .ok (part, others) ∧ first = token :: part := by
  cases parts with
  | error fault => cases found
  | ok pair =>
    cases found
    exact ⟨pair.1, rfl, rfl⟩

theorem splitFrom_joined {depth last : Nat} {started : Bool} {tokens first : List Token}
    {others : List (List Token)}
    (found : splitFrom depth started last tokens = .ok (first, others)) :
    Joined (first :: others) tokens := by
  fun_induction splitFrom depth started last tokens generalizing first others with
  | case1 => cases found
  | case2 =>
    cases found
    exact .one
  | case3 => cases found
  | case4 depth started last token rest opens ih =>
    obtain ⟨part, inner, rfl⟩ := consFirst_eq_ok found
    exact (ih inner).cons_first
  | case5 => cases found
  | case6 started last token rest opens closes depth ih =>
    obtain ⟨part, inner, rfl⟩ := consFirst_eq_ok found
    exact (ih inner).cons_first
  | case7 depth last token rest opens closes comma ih =>
    cases parts : splitFrom 0 false token.stop rest with
    | error fault =>
      rw [parts] at found
      cases found
    | ok pair =>
      rw [parts] at found
      cases found
      have kind : token.kind = .comma := by simpa [Token.isComma] using comma.1
      exact @Joined.more [] _ _ _ _ kind (ih parts)
  | case8 => cases found
  | case9 depth started last token rest opens closes comma ih =>
    obtain ⟨part, inner, rfl⟩ := consFirst_eq_ok found
    exact (ih inner).cons_first

theorem splitArguments_joined {tokens : List Token} {parts : List (List Token)}
    (found : splitArguments tokens = .ok parts) : Joined parts tokens := by
  cases tokens with
  | nil =>
    cases found
    exact .none
  | cons token rest =>
    cases pieces : splitFrom 0 false 0 (token :: rest) with
    | error fault =>
      rw [splitArguments, pieces] at found
      · cases found
      · simp
    | ok pair =>
      rw [splitArguments, pieces] at found
      · cases found
        exact splitFrom_joined pieces
      · simp

/-- Neither a bracket nor, unless it may be one, a comma. -/
def Kind.isInner (commas : Bool) (kind : Kind) : Bool :=
  !kind.isOpening && !kind.isClosing && (commas || kind != .comma)

/-- Tokens whose brackets close, with commas inside them only, unless `commas` says otherwise. -/
inductive Closed : Bool → List Token → Prop where
  | nil {commas : Bool} : Closed commas []
  | token {commas : Bool} {token : Token} {tokens : List Token}
      (inner : token.kind.isInner commas = true) (others : Closed commas tokens) :
      Closed commas (token :: tokens)
  | brackets {commas : Bool} {opening closing : Token} {inside tokens : List Token}
      (opens : opening.kind = .openParen) (closes : closing.kind = .closeParen)
      (within : Closed true inside) (others : Closed commas tokens) :
      Closed commas (opening :: (inside ++ closing :: tokens))
  | square {commas : Bool} {opening closing : Token} {inside tokens : List Token}
      (opens : opening.kind = .openBracket) (closes : closing.kind = .closeBracket)
      (within : Closed true inside) (others : Closed commas tokens) :
      Closed commas (opening :: (inside ++ closing :: tokens))

namespace Closed

theorem append {commas : Bool} {first second : List Token} (before : Closed commas first)
    (behind : Closed commas second) : Closed commas (first ++ second) := by
  induction before with
  | nil => exact behind
  | token inner others ih => exact .token inner (ih behind)
  | brackets opens closes within others _ ih =>
    rw [List.cons_append, List.append_assoc]
    exact .brackets opens closes within (ih behind)
  | square opens closes within others _ ih =>
    rw [List.cons_append, List.append_assoc]
    exact .square opens closes within (ih behind)

theorem weaken {commas : Bool} {tokens : List Token} (closed : Closed commas tokens) :
    Closed true tokens := by
  induction closed with
  | nil => exact .nil
  | token inner others ih =>
    simp only [Kind.isInner, Bool.and_eq_true] at inner
    exact .token (by simp [Kind.isInner, inner.1]) ih
  | brackets opens closes within others _ ih => exact .brackets opens closes within ih
  | square opens closes within others _ ih => exact .square opens closes within ih

end Closed

/-- A bracket is looked for behind tokens that close. -/
theorem upToClose_closed {commas : Bool} {tokens : List Token} (closed : Closed commas tokens)
    (depth : Nat) (rest : List Token) :
    upToClose depth (tokens ++ rest) =
      (upToClose depth rest).map fun parts => (tokens ++ parts.1, parts.2) := by
  induction closed generalizing depth rest with
  | nil => simp
  | @token commas token tokens inner others ih =>
    rw [List.cons_append, upToClose.eq_def]
    dsimp only
    split
    · simp_all [Kind.isInner, Kind.isOpening]
    · simp_all [Kind.isInner, Kind.isClosing]
    · rw [ih]
      simp [Option.map_map, Function.comp_def, consFirst]
  | @brackets commas opening closing inside tokens opens closes within others ihWithin ihOthers =>
    simp only [List.cons_append, List.append_assoc, upToClose, opens, closes, ihWithin, ihOthers]
    simp [Option.map_map, Function.comp_def, consFirst]
  | @square commas opening closing inside tokens opens closes within others ihWithin ihOthers =>
    simp only [List.cons_append, List.append_assoc, upToClose, opens, closes, ihWithin, ihOthers]
    simp [Option.map_map, Function.comp_def, consFirst]

private theorem selected_of_mem_topLevelFrom {selects : Token → Bool} {tokens : List Token}
    {depth index place : Nat} (found : place ∈ topLevelFrom selects depth index tokens) :
    ∃ offset token, place = index + offset ∧ tokens[offset]? = some token ∧
      selects token = true := by
  fun_induction topLevelFrom selects depth index tokens with
  | case1 => cases found
  | case4 depth index token rest opens closes here ih =>
    rcases List.mem_cons.1 found with rfl | later
    · exact ⟨0, token, rfl, rfl, here.2⟩
    · obtain ⟨offset, other, rfl, there, selected⟩ := ih later
      exact ⟨offset + 1, other, by omega, by simpa using there, selected⟩
  | _ =>
    rename_i ih
    obtain ⟨offset, other, rfl, there, selected⟩ := ih found
    exact ⟨offset + 1, other, by omega, by simpa using there, selected⟩

/-- A selected place holds a selected token. -/
theorem selected_of_mem_topLevel {selects : Token → Bool} {tokens : List Token} {place : Nat}
    (found : place ∈ topLevel selects tokens) :
    ∃ token, tokens[place]? = some token ∧ selects token = true := by
  obtain ⟨offset, token, rfl, there, selected⟩ := selected_of_mem_topLevelFrom found
  exact ⟨token, by simpa using there, selected⟩

/-- A list is what stands before one of its places, the token there, and what stands behind it. -/
theorem eq_take_append_drop {tokens : List Token} {place : Nat} {token : Token}
    (there : tokens[place]? = some token) :
    tokens = tokens.take place ++ token :: tokens.drop (place + 1) := by
  obtain ⟨inside, same⟩ := List.getElem?_eq_some_iff.1 there
  rw [← same, List.getElem_cons_drop, List.take_append_drop]

theorem bind_eq_ok {ε α β : Type} {first : Except ε α} {next : α → Except ε β} {value : β} :
    (first >>= next) = .ok value ↔ ∃ middle, first = .ok middle ∧ next middle = .ok value := by
  cases first <;> simp [bind, Except.bind]

/-- A success can be seen without looking at faults, whose equality need not be decided. -/
theorem eq_ok_of_toOption {ε α : Type} {result : Except ε α} {value : α}
    (accepted : result.toOption = some value) : result = .ok value := by
  cases result with
  | error fault => cases accepted
  | ok found =>
    cases accepted
    rfl

/-- The marks in front of the parts of a clause. -/
inductive Mark where
  | whereWord
  | fatArrow
  deriving DecidableEq, Repr

def Mark.kind : Mark → Kind
  | whereWord => .keyword .whereWord
  | fatArrow => .fatArrow

/-- The tokens are a mark with the part behind it, or none if there is no such part. -/
def Marked (mark : Mark) (part : Option (List Token)) (tokens : List Token) : Prop :=
  match part with
  | none => tokens = []
  | some body => ∃ token, tokens = token :: body ∧ token.kind = mark.kind

namespace Aggregation

theorem nonEmpty_eq_ok {name : String} {cause : ClauseCause} {tokens found : List Token} :
    nonEmpty name cause tokens = .ok found ↔ tokens ≠ [] ∧ found = tokens := by
  rw [nonEmpty]
  split
  · simp_all
  · simp_all [eq_comm]

/-- The tokens at the places of the cuts are marks. -/
private theorem cutClause_marked {name : String} {tokens : List Token} {clause : Clause}
    {whereAt arrowAt : Option Nat}
    (wheres : ∀ place ∈ whereAt, ∃ token, tokens[place]? = some token ∧
      token.kind = .keyword .whereWord)
    (arrows : ∀ place ∈ arrowAt, ∃ token, tokens[place]? = some token ∧ token.kind = .fatArrow)
    (found : cutClause name tokens whereAt arrowAt = .ok clause) :
    ∃ middle behind, tokens = clause.collection ++ middle ++ behind ∧
      Marked .whereWord clause.predicate middle ∧
      Marked .fatArrow clause.projection behind := by
  rcases whereAt with _ | whereAt <;> rcases arrowAt with _ | arrowAt
  · cases found
    exact ⟨[], [], by simp, rfl, rfl⟩
  · obtain ⟨token, there, kind⟩ := arrows arrowAt rfl
    simp only [cutClause] at found
    obtain ⟨projection, present, found⟩ := bind_eq_ok.1 found
    cases found
    obtain ⟨-, rfl⟩ := nonEmpty_eq_ok.1 present
    exact ⟨[], _, by simpa using eq_take_append_drop there, rfl, token, rfl, kind⟩
  · obtain ⟨token, there, kind⟩ := wheres whereAt rfl
    simp only [cutClause] at found
    obtain ⟨predicate, present, found⟩ := bind_eq_ok.1 found
    cases found
    obtain ⟨-, rfl⟩ := nonEmpty_eq_ok.1 present
    exact ⟨_, [], by simpa using eq_take_append_drop there, ⟨token, rfl, kind⟩, rfl⟩
  · obtain ⟨first, there, isWhere⟩ := wheres whereAt rfl
    obtain ⟨second, further, isArrow⟩ := arrows arrowAt rfl
    simp only [cutClause] at found
    split at found
    · cases found
    · rename_i ordered
      obtain ⟨predicate, test, found⟩ := bind_eq_ok.1 found
      obtain ⟨projection, value, found⟩ := bind_eq_ok.1 found
      cases found
      obtain ⟨-, rfl⟩ := nonEmpty_eq_ok.1 test
      obtain ⟨-, rfl⟩ := nonEmpty_eq_ok.1 value
      have before : whereAt < arrowAt := by
        rcases Nat.lt_or_eq_of_le (Nat.le_of_not_lt ordered) with before | rfl
        · exact before
        · rw [there] at further
          cases further
          rw [isWhere] at isArrow
          cases isArrow
      have within : (tokens.take arrowAt)[whereAt]? = some first := by
        rw [List.getElem?_take_of_lt before, there]
      have front := eq_take_append_drop within
      rw [List.take_take, Nat.min_eq_left (Nat.le_of_lt before)] at front
      refine ⟨_, _, ?_, ⟨first, rfl, isWhere⟩, second, rfl, isArrow⟩
      rw [← front]
      exact eq_take_append_drop further

private theorem place_of_mem_head? {selects : Token → Bool} {mark : Kind} {tokens : List Token}
    (marks : ∀ token, selects token = true → token.kind = mark) (place : Nat)
    (found : place ∈ (topLevel selects tokens).head?) :
    ∃ token, tokens[place]? = some token ∧ token.kind = mark := by
  obtain ⟨token, there, selected⟩ := selected_of_mem_topLevel (List.mem_of_mem_head? found)
  exact ⟨token, there, marks token selected⟩

/-- A clause is its collection and its two parts, each behind its mark. -/
theorem splitClause_marked {name : String} {tokens : List Token} {clause : Clause}
    (found : splitClause name tokens = .ok clause) :
    ∃ middle behind, tokens = clause.collection ++ middle ++ behind ∧
      Marked .whereWord clause.predicate middle ∧
      Marked .fatArrow clause.projection behind := by
  rw [splitClause] at found
  split at found
  · cases found
  · dsimp only at found
    split at found
    · cases found
    · split at found
      · cases found
      · refine cutClause_marked (place_of_mem_head? ?_) (place_of_mem_head? ?_) found
        · simp [Token.isWhere]
        · simp [Token.isFatArrow]

theorem splitKey_eq_ok {name : String} {tokens : List Token} {key : Key}
    (found : splitKey name tokens = .ok key) :
    ∃ parameter arrow, tokens = parameter :: arrow :: key.body ∧
      parameter.kind = .ident key.parameter ∧ arrow.kind = .fatArrow := by
  unfold splitKey at found
  split at found
  · cases found
  · split at found
    · rename_i parameter arrow body _
      split at found
      · rename_i isArrow
        split at found
        · cases found
        · rename_i spelled named
          split at found
          · cases found
          · cases found
            refine ⟨parameter, arrow, rfl, ?_, by simpa [Token.isFatArrow] using isArrow⟩
            cases kind : parameter.kind <;> simp_all [Kind.name?]
      · cases found
    · cases found

/-- The parts of a keyed aggregation: a key, with or without a source in front of it. -/
theorem splitKeyed_eq_ok {name : String} {parts : List (List Token)} {clause : Clause} {key : Key}
    (found : splitKeyed name parts = .ok (clause, key)) :
    (∃ body, parts = [body] ∧ clause = ⟨[], none, none⟩ ∧ splitKey name body = .ok key) ∨
      ∃ source body, parts = [source, body] ∧ splitClause name source = .ok clause ∧
        clause.projection = none ∧ splitKey name body = .ok key := by
  unfold splitKeyed at found
  split at found
  · rename_i body
    obtain ⟨_, split, found⟩ := bind_eq_ok.1 found
    cases found
    exact .inl ⟨body, rfl, rfl, split⟩
  · rename_i source body
    obtain ⟨cut, marked, found⟩ := bind_eq_ok.1 found
    split at found
    · cases found
    · rename_i plain
      obtain ⟨_, split, found⟩ := bind_eq_ok.1 found
      cases found
      exact .inr ⟨source, body, rfl, marked, by simpa using plain, split⟩
  · cases found

end Aggregation

end Formulary
