import Formulary.Proofs.Clauses
import Formulary.Proofs.Nested

set_option autoImplicit false

namespace Formulary

/-- What gives bare names another receiver. -/
inductive Binder where
  /-- The test or the value of an aggregation. -/
  | clause
  /-- The key of a keyed aggregation. -/
  | key (parameter : String)
  deriving DecidableEq, Repr

/-- The scope inside these binders, the nearest first. -/
def Scope.within : List Binder → Scope
  | [] => entity
  | .clause :: around => (within around).element (within around).nextVar
  | .key parameter :: around => (within around).lambda parameter

/-- A reference with the binders around it, the nearest first. One without names is the collection
of an aggregation that leaves it out. -/
structure Use where
  binders : List Binder
  names : List String
  deriving DecidableEq, Repr

/-- What a reference stands for. -/
def Use.path (use : Use) : Path := (Scope.within use.binders).resolve use.names

/-- Tokens of a call that are read by themselves, and the binders around them. -/
structure Portion where
  binders : List Binder
  tokens : List Token
  /-- Whether an aggregation runs over what they stand for. -/
  isSource : Bool
  deriving DecidableEq, Repr

/-- The references in a portion, given those of an expression. -/
def Portion.uses (inside : List Binder → List Token → List Use) (portion : Portion) : List Use :=
  if portion.isSource then
    match portion.tokens, referenceNames? portion.tokens with
    | [], _ => [⟨portion.binders, []⟩]
    | _, some names => [⟨portion.binders, names⟩]
    | tokens, none => inside portion.binders tokens
  else inside portion.binders portion.tokens

section Portions

variable (binders : List Binder)

/-- The test and the value of an aggregation are under a binder of their own, its collection is
not. -/
def clausePortions (clause : Aggregation.Clause) : List Portion :=
  ⟨binders, clause.collection, true⟩ ::
    (clause.predicate.toList ++ clause.projection.toList).map (⟨.clause :: binders, ·, false⟩)

def keyedPortions (name : String) (arguments : List (List Token)) : List Portion :=
  match Aggregation.splitKeyed name arguments with
  | .ok (clause, key) =>
    clausePortions binders clause ++ [⟨.key key.parameter :: binders, key.body, false⟩]
  | .error _ => []

def aggregationPortions (name : String) (tokens : List Token) : List Portion :=
  if name = "MINBY" ∨ name = "MAXBY" then
    match splitArguments tokens with
    | .ok arguments => keyedPortions binders name arguments
    | .error _ => []
  else if name = "TOPN" then
    match splitArguments tokens with
    | .ok (count :: arguments) => ⟨binders, count, false⟩ :: keyedPortions binders name arguments
    | _ => []
  else
    match Aggregation.splitClause name tokens with
    | .ok clause => clausePortions binders clause
    | .error _ => []

/-- The values that arguments give to a keyword. -/
def keywordValues (key : Call.ArgumentKey) (arguments : List (List Token)) : List (List Token) :=
  arguments.filterMap fun argument =>
    match Call.keyword? argument with
    | some (other, value) => if other = key then some value else none
    | none => none

/-- Keywords and the name of a member are no references. -/
def tablePortions (shape : CallShape) (tokens : List Token) : List Portion :=
  if shape = .positional ∨ shape = .buildingBlock then [⟨binders, tokens, false⟩]
  else
    match splitArguments tokens with
    | .ok (target :: options) =>
      (target :: keywordValues .axis options ++ keywordValues .index options).map
        (⟨binders, ·, false⟩)
    | _ => []

/-- The portions of a call. -/
def portions (name : String) (tokens : List Token) : List Portion :=
  if Aggregation.isRelational name tokens (.within binders) then
    aggregationPortions binders name tokens
  else
    match Signature.lookup? name with
    | some signature => tablePortions binders signature.shape tokens
    | none => []

end Portions

/-- What stands in the brackets that tokens start with, and what follows. -/
def bracketed? : List Token → Option (List Token × List Token)
  | [] => none
  | opening :: rest => if opening.kind = .openParen then upToClose 0 rest else none

/-- The members behind the first name of a reference, and what follows. -/
def memberNames : List Token → List String × List Token
  | mark :: token :: rest =>
    match mark.kind.isMemberMark, token.kind.name? with
    | true, some name => (name :: (memberNames rest).1, (memberNames rest).2)
    | _, _ => ([], mark :: token :: rest)
  | tokens => ([], tokens)

theorem bracketed?_shorter {tokens inside rest : List Token}
    (found : bracketed? tokens = some (inside, rest)) : rest.length < tokens.length := by
  unfold bracketed? at found
  split at found
  · cases found
  · split at found
    · exact Nat.lt_succ_of_lt (upToClose_shorter found)
    · cases found

theorem length_memberNames_le (tokens : List Token) :
    (memberNames tokens).2.length ≤ tokens.length := by
  fun_induction memberNames tokens with
  | case1 mark token rest name _ _ ih => simp only [List.length_cons]; omega
  | case2 => exact Nat.le_refl _
  | case3 => exact Nat.le_refl _

/-- The references in tokens, given those in the arguments of a call. -/
def references (inside : String → List Token → List Use) (binders : List Binder)
    (tokens : List Token) : List Use :=
  match tokens with
  | [] => []
  | token :: rest =>
    match token.kind.name? with
    | none => references inside binders rest
    | some name =>
      match _ : bracketed? rest with
      | some (arguments, behind) => inside name arguments ++ references inside binders behind
      | none =>
        -- A literal is spelled like a name but refers to nothing.
        if (Grammar.literal? name).isSome then references inside binders rest
        else
          ⟨binders, name :: (memberNames rest).1⟩ ::
            references inside binders (memberNames rest).2
termination_by tokens.length
decreasing_by
  · simp
  · exact Nat.lt_succ_of_lt (bracketed?_shorter ‹_›)
  · simp
  · exact Nat.lt_succ_of_le (length_memberNames_le rest)

/-- The references in the arguments of a call, with calls in it up to so many levels deep. -/
def callUses : Nat → List Binder → String → List Token → List Use
  | 0, _, _, _ => []
  | levels + 1, binders, name, tokens =>
    (portions binders name.toUpper tokens).flatMap
      (Portion.uses fun binders => references (callUses levels binders) binders)

/-- The references in an expression, with calls in it up to so many levels deep. -/
def usesAt (levels : Nat) (binders : List Binder) (tokens : List Token) : List Use :=
  references (callUses levels binders) binders tokens

/-- The references in an expression. -/
def uses (binders : List Binder) (tokens : List Token) : List Use :=
  usesAt tokens.length binders tokens

/-- Whether a token can go on with a reference or a call. -/
def Kind.isLink (kind : Kind) : Bool :=
  kind.name?.isSome || kind.isMemberMark || kind == .openParen

/-- Every round bracket is closed. -/
def CallsClose (tokens : List Token) : Prop :=
  ∀ before opening rest, tokens = before ++ opening :: rest → opening.kind = .openParen →
    (upToClose 0 rest).isSome = true

theorem CallsClose.of_append {before tokens : List Token} (closes : CallsClose (before ++ tokens)) :
    CallsClose tokens := by
  rintro between opening rest rfl opens
  exact closes (before ++ between) opening rest (by simp) opens

theorem Closed.callsClose {commas : Bool} {tokens : List Token} (closed : Closed commas tokens) :
    CallsClose tokens := by
  intro before opening rest whole opens
  obtain ⟨inside, closing, after, rfl, closes, within⟩ := closed.partner whole opens
  rw [upToClose_of_closed within closes]
  rfl

section References

variable {inside : String → List Token → List Use} {binders : List Binder}
  {token : Token} {tokens rest : List Token} {name : String}

theorem bracketed?_suffix {arguments behind : List Token}
    (found : bracketed? tokens = some (arguments, behind)) : ∃ front, tokens = front ++ behind := by
  unfold bracketed? at found
  split at found
  · cases found
  · rename_i opening rest
    split at found
    · obtain ⟨closing, rfl, -⟩ := upToClose_append found
      exact ⟨opening :: (arguments ++ [closing]), by simp⟩
    · cases found

theorem bracketed?_append {arguments behind : List Token} (rest : List Token)
    (found : bracketed? tokens = some (arguments, behind)) :
    bracketed? (tokens ++ rest) = some (arguments, behind ++ rest) := by
  unfold bracketed? at found ⊢
  split at found
  · cases found
  · split at found
    · rename_i opens
      simp only [List.cons_append, if_pos opens]
      exact upToClose_extend rest found
    · cases found

theorem bracketed?_append_none (closes : CallsClose tokens) (apart : token.kind.isLink = false)
    (unclosed : bracketed? tokens = none) : bracketed? (tokens ++ token :: rest) = none := by
  cases tokens with
  | nil =>
    have other : token.kind ≠ .openParen := by
      intro opens
      simp [Kind.isLink, opens] at apart
    simp [bracketed?, other]
  | cons opening tokens =>
    have other : opening.kind ≠ .openParen := by
      intro opens
      have closed := closes [] opening tokens rfl opens
      rw [bracketed?, if_pos opens] at unclosed
      simp [unclosed] at closed
    simp [bracketed?, other]

theorem memberNames_suffix (tokens : List Token) :
    ∃ front, tokens = front ++ (memberNames tokens).2 := by
  fun_induction memberNames tokens with
  | case1 mark token rest name _ _ ih =>
    obtain ⟨front, same⟩ := ih
    exact ⟨mark :: token :: front, by simp [← same]⟩
  | case2 => exact ⟨[], rfl⟩
  | case3 => exact ⟨[], rfl⟩

theorem memberNames_append (apart : token.kind.isLink = false) (tokens rest : List Token) :
    memberNames (tokens ++ token :: rest) =
      ((memberNames tokens).1, (memberNames tokens).2 ++ token :: rest) := by
  simp only [Kind.isLink, Bool.or_eq_false_iff, Option.isSome_eq_false_iff,
    Option.isNone_iff_eq_none] at apart
  obtain ⟨⟨unnamed, unmarked⟩, -⟩ := apart
  fun_induction memberNames tokens with
  | case1 mark next others name isMark named ih =>
    simp only [List.cons_append, memberNames, isMark, named, ih]
  | case2 mark next others other =>
    rw [List.cons_append, List.cons_append, memberNames]
    split
    · rename_i isMark named
      exact (other _ isMark named).elim
    · rfl
  | case3 tokens short =>
    rcases tokens with _ | ⟨mark, _ | ⟨next, others⟩⟩
    · cases rest with
      | nil => rfl
      | cons next rest =>
        rw [List.nil_append, memberNames, unmarked]
    · rw [List.cons_append, List.nil_append, memberNames, unnamed]
      cases mark.kind.isMemberMark <;> rfl
    · exact (short mark next others rfl).elim

theorem references_cons_of_unnamed (unnamed : token.kind.name? = none) :
    references inside binders (token :: rest) = references inside binders rest := by
  rw [references, unnamed]

theorem references_cons_of_called {arguments behind : List Token}
    (named : token.kind.name? = some name) (found : bracketed? rest = some (arguments, behind)) :
    references inside binders (token :: rest) =
      inside name arguments ++ references inside binders behind := by
  rw [references, named]
  dsimp only
  split
  · rename_i again
    rw [found] at again
    cases again
    rfl
  · rename_i again
    rw [found] at again
    cases again

theorem references_cons_of_named (named : token.kind.name? = some name)
    (found : bracketed? rest = none) :
    references inside binders (token :: rest) =
      if (Grammar.literal? name).isSome then references inside binders rest
      else
        ⟨binders, name :: (memberNames rest).1⟩ ::
          references inside binders (memberNames rest).2 := by
  rw [references, named]
  dsimp only
  split
  · rename_i again
    rw [found] at again
    cases again
  · rfl

/-- The references on both sides of a token that ends what stands in front of it. -/
theorem references_append (closes : CallsClose tokens) (apart : token.kind.isLink = false) :
    references inside binders (tokens ++ token :: rest) =
      references inside binders tokens ++ references inside binders rest := by
  have unnamed : token.kind.name? = none := by
    cases named : token.kind.name? with
    | none => rfl
    | some name => simp [Kind.isLink, named] at apart
  fun_induction references inside binders tokens with
  | case1 => exact references_cons_of_unnamed unnamed
  | case2 head tail other ih =>
    rw [List.cons_append, references_cons_of_unnamed other]
    exact ih (@CallsClose.of_append [head] _ closes)
  | case3 head tail name named arguments behind found ih =>
    obtain ⟨front, rfl⟩ := bracketed?_suffix found
    rw [List.cons_append, references_cons_of_called named (bracketed?_append _ found),
      ih (@CallsClose.of_append (head :: front) _ closes), List.append_assoc]
  | case4 head tail name named found known ih =>
    have later : CallsClose tail := @CallsClose.of_append [head] _ closes
    rw [List.cons_append, references_cons_of_named named (bracketed?_append_none later apart found),
      if_pos known, ih later]
  | case5 head tail name named found known ih =>
    have later : CallsClose tail := @CallsClose.of_append [head] _ closes
    obtain ⟨front, same⟩ := memberNames_suffix tail
    rw [List.cons_append, references_cons_of_named named (bracketed?_append_none later apart found),
      if_neg known, memberNames_append apart]
    rw [ih (by rw [same] at later; exact later.of_append), List.cons_append]

theorem references_call {head opening closing : Token} (kind : head.kind = .ident name)
    (opens : opening.kind = .openParen) (closes : closing.kind = .closeParen)
    (within : Closed true tokens) :
    references inside binders (head :: opening :: (tokens ++ [closing])) = inside name tokens := by
  have found : bracketed? (opening :: (tokens ++ [closing])) = some (tokens, []) := by
    rw [bracketed?, if_pos opens, upToClose_of_closed within closes]
  rw [references_cons_of_called (by rw [kind]; rfl) found, references, List.append_nil]

theorem memberNames_of_dotted {names : List String}
    (dotted : referenceNames? (token :: rest) = some names) :
    ∃ name, token.kind.name? = some name ∧ names = name :: (memberNames rest).1 ∧
      (memberNames rest).2 = [] := by
  generalize whole : token :: rest = tokens at dotted
  fun_induction referenceNames? tokens generalizing token rest names with
  | case1 => cases whole
  | case2 only =>
    cases whole
    obtain ⟨name, named, rfl⟩ := Option.map_eq_some_iff.1 dotted
    exact ⟨name, named, rfl, rfl⟩
  | case3 first mark others isMark ih =>
    cases whole
    obtain ⟨name, named, dotted⟩ := Option.bind_eq_some_iff.1 dotted
    obtain ⟨more, later, same⟩ := Option.bind_eq_some_iff.1 dotted
    cases same
    cases others with
    | nil => cases later
    | cons next others =>
      obtain ⟨member, isMember, rfl, nothing⟩ := ih rfl later
      refine ⟨name, named, ?_, ?_⟩ <;> simp [memberNames, isMark, isMember, nothing]
  | case4 => cases dotted

/-- A reference is the one reference in it. -/
theorem references_of_dotted {names : List String} (dotted : referenceNames? tokens = some names)
    (plain : ∀ name ∈ names.head?, Grammar.literal? name = none) :
    references inside binders tokens = [⟨binders, names⟩] := by
  cases tokens with
  | nil => cases dotted
  | cons token rest =>
    obtain ⟨name, named, rfl, nothing⟩ := memberNames_of_dotted dotted
    have found : bracketed? rest = none := by
      cases rest with
      | nil => rfl
      | cons mark rest =>
        have other : mark.kind ≠ .openParen := by
          intro opens
          simp [referenceNames?, opens, Kind.isMemberMark] at dotted
        rw [bracketed?, if_neg other]
    rw [references_cons_of_named named found, plain name rfl, nothing, references]
    rfl

end References

end Formulary
