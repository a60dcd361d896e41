import Mathlib
import Formulary.Proofs.Clauses
import Formulary.Proofs.Pieces

set_option autoImplicit false

namespace Formulary

/-- The code of an aggregation, from its name and the tokens between its brackets, at a place with
this scope and so many levels of nesting left. -/
def aggregationAt (levels : Nat) (source : List Char) (scope : Scope) (name : String)
    (arguments : List Token) : Except Fault Fragment :=
  (Aggregation.read (readWhole (Grammar.readerAt levels) source) source name arguments
    scope).result.map Expr.fragment

theorem compileAggregation_eq (source name : String) (arguments : List Token) (scope : Scope) :
    (Formula.compileAggregation source name arguments scope).result =
      aggregationAt maxNesting source.toList scope name arguments := by
  rw [Formula.compileAggregation, Traced.result_bind, aggregationAt, Formula.readSlice]
  rfl

namespace Aggregation

section Parts

variable (levels : Nat) (source : List Char) (scope : Scope)

/-- The code of a collection: none is the receiver, a reference is looked up as a collection, and
anything else is an expression. -/
inductive CollectionAt : List Token → Fragment → Prop where
  | receiver : CollectionAt [] (.plain scope.receiverText)
  | reference {tokens : List Token} {names : List String} {collection : Collection}
      (reference : referenceNames? tokens = some names)
      (found : scope.collection names (sourceText source tokens) = .ok collection) :
      CollectionAt tokens (.plain collection.render)
  | expression {tokens : List Token} {fragment : Fragment} (present : tokens ≠ [])
      (other : referenceNames? tokens = none)
      (compiled : sliceAt levels source scope tokens = .ok fragment) : CollectionAt tokens fragment

/-- The code of a part that may be absent. -/
def OptionalAt : Option (List Token) → Option Fragment → Prop :=
  Option.Rel fun tokens fragment => sliceAt levels source scope tokens = .ok fragment

variable {levels source scope}

theorem collectionAt_iff {tokens : List Token} {fragment : Fragment} :
    CollectionAt levels source scope tokens fragment ↔
      ∃ expr, (readCollection (readWhole (Grammar.readerAt levels) source) source scope
          tokens).result = .ok expr ∧ fragment = expr.fragment := by
  cases tokens with
  | nil =>
    constructor
    · rintro (_ | ⟨names, _⟩ | ⟨nothing, _⟩)
      · exact ⟨_, rfl, rfl⟩
      · cases names
      · exact absurd rfl nothing
    · rintro ⟨_, ⟨⟩, rfl⟩
      exact .receiver
  | cons token rest =>
    rw [readCollection]
    · cases reference : referenceNames? (token :: rest) with
      | some names =>
        constructor
        · rintro (_ | ⟨same, found⟩ | ⟨_, other, _⟩)
          · rw [reference] at same
            cases same
            exact ⟨_, Traced.result_bind_eq_ok.2 ⟨_, found, rfl⟩, rfl⟩
          · rw [reference] at other
            cases other
        · rintro ⟨expr, success, rfl⟩
          obtain ⟨collection, found, same⟩ := Traced.result_bind_eq_ok.1 success
          cases same
          exact .reference reference found
      | none =>
        constructor
        · rintro (_ | ⟨same, _⟩ | ⟨_, _, compiled⟩)
          · rw [reference] at same
            cases same
          · exact sliceAt_eq_ok.1 compiled
        · intro compiled
          exact .expression (by simp) reference (sliceAt_eq_ok.2 compiled)
    · simp

theorem optionalAt_iff {part : Option (List Token)} {piece : Option Fragment} :
    OptionalAt levels source scope part piece ↔
      ∃ expr, (readOptional (readWhole (Grammar.readerAt levels) source) scope part).result =
          .ok expr ∧ piece = expr.map Expr.fragment := by
  cases part with
  | none =>
    constructor
    · rintro ⟨⟩
      exact ⟨none, rfl, rfl⟩
    · rintro ⟨_, ⟨⟩, rfl⟩
      exact .none
  | some tokens =>
    constructor
    · rintro ⟨compiled⟩
      obtain ⟨expr, success, rfl⟩ := sliceAt_eq_ok.1 compiled
      exact ⟨some expr, Traced.result_bind_eq_ok.2 ⟨expr, success, rfl⟩, rfl⟩
    · rintro ⟨found, success, rfl⟩
      obtain ⟨expr, read, same⟩ := Traced.result_bind_eq_ok.1 success
      cases same
      exact .some (sliceAt_eq_ok.2 ⟨expr, read, rfl⟩)

end Parts

theorem readSource_eq_ok {read : SliceReader} {source : List Char} {scope : Scope} {clause : Clause}
    {found : Source} :
    (readSource read source scope clause).result = .ok found ↔
      ∃ collection predicate,
        (readCollection read source scope clause.collection).result = .ok collection ∧
        (readOptional read (scope.element scope.nextVar) clause.predicate).result = .ok predicate ∧
        found = ⟨collection, predicate, scope.nextVar, scope.element scope.nextVar⟩ := by
  simp only [readSource, Traced.result_bind_eq_ok, Traced.result_pure, Except.ok.injEq,
    exists_and_left, @eq_comm _ found]

theorem var_of_readSource {read : SliceReader} {source : List Char} {scope : Scope}
    {clause : Clause} {found : Source}
    (taken : (readSource read source scope clause).result = .ok found) :
    found.var = scope.nextVar := by
  obtain ⟨_, _, -, -, rfl⟩ := readSource_eq_ok.1 taken
  rfl

end Aggregation

namespace Expr

theorem renderOption_eq (part : Option Expr) :
    renderOption part = (part.map fragment).map Fragment.code := by
  cases part <;> rfl

theorem needs_toList (part : Option Expr) :
    (part.map fragment).toList.map Fragment.needs = part.toList.map needs := by
  cases part <;> rfl

end Expr

namespace Aggregation

/-- The names of the aggregations that reduce a collection to one value. -/
def reductions : List String := ["COUNT", "SUM", "AVG", "MODE", "EXISTS"]

/-- The text of a count, from the variable `v` and the texts of the collection `C`, the test `P` and
the value `J`. -/
def countForm (v C : String) (predicate projection : Option String) : String :=
  match predicate, projection with
  | none, none => s!"len({C})"
  | some P, none => s!"sum(1 for {v} in {C} if {P})"
  | none, some J => s!"sum(1 for {v} in {C} if {J} is not None)"
  | some P, some J => s!"sum(1 for {v} in {C} if {P} and {J} is not None)"

def existsForm (v C : String) (predicate projection : Option String) : String :=
  match predicate, projection with
  | none, none => s!"(len({C}) > 0)"
  | some P, none => s!"any(True for {v} in {C} if {P})"
  | none, some J => s!"any({J} for {v} in {C})"
  | some P, some J => s!"any({J} for {v} in {C} if {P})"

/-- The text of a reduction that applies the function `f`. -/
def applyForm (f v C : String) (predicate projection : Option String) : String :=
  match predicate, projection with
  | none, none => s!"{f}({C})"
  | some P, none => s!"{f}({v} for {v} in {C} if {P})"
  | none, some J => s!"{f}({J} for {v} in {C})"
  | some P, some J => s!"{f}({J} for {v} in {C} if {P})"

/-- The text of the reduction with this name. -/
def reductionForm (name v C : String) (predicate projection : Option String) : String :=
  match name with
  | "COUNT" => countForm v C predicate projection
  | "EXISTS" => existsForm v C predicate projection
  | "AVG" => applyForm "statistics.mean" v C predicate projection
  | "MODE" => applyForm "statistics.mode" v C predicate projection
  | _ => applyForm "sum" v C predicate projection

/-- What a reduction needs besides its parts. -/
def reductionNeeds (name : String) : Needs := ⟨.empty, name = "AVG" || name = "MODE"⟩

section Forms

variable (f v C : String) (predicate projection : Option String)

theorem countForm_eq :
    countForm v C predicate projection = Reducer.countCode v C predicate projection := by
  apply String.toList_injective
  unfold countForm Reducer.countCode generator
  rcases predicate with _ | P <;> rcases projection with _ | J <;> simp [toString]

theorem existsForm_eq :
    existsForm v C predicate projection = Reducer.existsCode v C predicate projection := by
  apply String.toList_injective
  unfold existsForm Reducer.existsCode generator
  rcases predicate with _ | P <;> rcases projection with _ | J <;> simp [toString]

theorem applyForm_eq :
    applyForm f v C predicate projection = Reducer.applyCode f v C predicate projection := by
  apply String.toList_injective
  unfold applyForm Reducer.applyCode generator
  rcases predicate with _ | P <;> rcases projection with _ | J <;> simp [toString]

end Forms

theorem reductionForm_eq {name : String} (reduces : name ∈ reductions) :
    ∃ reducer, Reducer.ofName? name = some reducer ∧ reductionForm name = reducer.code ∧
      reductionNeeds name = ⟨.empty, reducer.needsStatistics⟩ := by
  simp only [reductions, List.mem_cons, List.not_mem_nil, or_false] at reduces
  rcases reduces with rfl | rfl | rfl | rfl | rfl
  · exact ⟨.count, rfl, by funext v C P J; exact countForm_eq v C P J, rfl⟩
  · exact ⟨.sum, rfl, by funext v C P J; exact applyForm_eq "sum" v C P J, rfl⟩
  · exact ⟨.mean, rfl, by funext v C P J; exact applyForm_eq "statistics.mean" v C P J, rfl⟩
  · exact ⟨.mode, rfl, by funext v C P J; exact applyForm_eq "statistics.mode" v C P J, rfl⟩
  · exact ⟨.exists, rfl, by funext v C P J; exact existsForm_eq v C P J, rfl⟩

theorem fragment_reduce {name : String} {reducer : Reducer}
    (form : reductionForm name = reducer.code)
    (needs : reductionNeeds name = ⟨.empty, reducer.needsStatistics⟩) (v : String)
    (collection : Expr) (predicate projection : Option Expr) :
    (Expr.reduce reducer v collection predicate projection).fragment =
      ⟨reductionForm name v collection.fragment.code
          ((predicate.map Expr.fragment).map Fragment.code)
          ((projection.map Expr.fragment).map Fragment.code),
        .joinAll (reductionNeeds name :: collection.fragment.needs ::
          ((predicate.map Expr.fragment).toList ++ (projection.map Expr.fragment).toList).map
            Fragment.needs)⟩ := by
  have joined : (Expr.reduce reducer v collection predicate projection).needs =
      .joinAll (reductionNeeds name :: collection.fragment.needs ::
        ((predicate.map Expr.fragment).toList ++ (projection.map Expr.fragment).toList).map
          Fragment.needs) := by
    rw [Expr.needs_eq, Expr.ownNeeds, needs]
    simp [Expr.parts, Expr.fragment, Expr.needs_toList]
  rw [Expr.fragment, joined, Expr.render, Expr.renderOption_eq, Expr.renderOption_eq, form]
  rfl

section Reading

variable {read : SliceReader} {source : List Char} {scope : Scope} {name : String}
  {arguments : List Token}

theorem readReduction_eq_ok {clause : Clause} {reducer : Reducer} {expr : Expr}
    (split : splitClause name arguments = .ok clause)
    (known : Reducer.ofName? name = some reducer) :
    (readReduction read source name arguments scope).result = .ok expr ↔
      ∃ collection predicate projection,
        (readCollection read source scope clause.collection).result = .ok collection ∧
        (readOptional read (scope.element scope.nextVar) clause.predicate).result = .ok predicate ∧
        (readOptional read (scope.element scope.nextVar) clause.projection).result =
          .ok projection ∧
        expr = .reduce reducer scope.nextVar collection predicate projection := by
  simp only [readReduction, known, Traced.result_bind_eq_ok, Traced.result_liftM, split,
    Except.ok.injEq, exists_eq_left', readSource_eq_ok, Traced.result_pure, @eq_comm _ expr]
  constructor
  · rintro ⟨_, ⟨collection, predicate, read, test, rfl⟩, projection, value, rfl⟩
    exact ⟨collection, predicate, projection, read, test, value, rfl⟩
  · rintro ⟨collection, predicate, projection, read, test, value, rfl⟩
    exact ⟨_, ⟨collection, predicate, read, test, rfl⟩, projection, value, rfl⟩

theorem read_reduction (reduces : name ∈ reductions) :
    (Aggregation.read read source name arguments scope).result =
      (readReduction read source name arguments scope).result := by
  simp only [reductions, List.mem_cons, List.not_mem_nil, or_false] at reduces
  rcases reduces with rfl | rfl | rfl | rfl | rfl <;> rfl

end Reading

end Aggregation

open Aggregation

/-- A reduction of arguments with paired brackets. Either something outside the brackets keeps them
from being a clause, and that is the fault; or they are one clause, and then the reduction compiles
if and only if the parts of the clause do, each in its scope, and its code is made of theirs. -/
theorem aggregationAt_reduction {name : String} {arguments : List Token} (levels : Nat)
    (source : List Char) (scope : Scope) (reduces : name ∈ reductions)
    (paired : Paired arguments) :
    (MalformedClause arguments →
      ∃ cause, aggregationAt levels source scope name arguments =
        .error (.aggregationClause name cause)) ∧
    (¬MalformedClause arguments →
      ∃ clause, (∀ other, IsClause arguments other ↔ other = clause) ∧
        ∀ fragment, aggregationAt levels source scope name arguments = .ok fragment ↔
          ∃ collection predicate projection,
            CollectionAt levels source scope clause.collection collection ∧
            OptionalAt levels source (scope.element scope.nextVar) clause.predicate predicate ∧
            OptionalAt levels source (scope.element scope.nextVar) clause.projection projection ∧
            fragment = ⟨reductionForm name scope.nextVar collection.code
                (predicate.map Fragment.code) (projection.map Fragment.code),
              .joinAll (reductionNeeds name :: collection.needs ::
                (predicate.toList ++ projection.toList).map Fragment.needs)⟩) := by
  constructor
  · intro malformed
    obtain ⟨cause, split⟩ := malformed.splitClause_eq name
    refine ⟨cause, ?_⟩
    rw [aggregationAt, read_reduction reduces, readReduction, Traced.result_bind,
      Traced.result_liftM, split]
    rfl
  · intro wellFormed
    obtain ⟨clause, is⟩ := (malformed_or_isClause paired).resolve_left wellFormed
    obtain ⟨reducer, known, form, needs⟩ := reductionForm_eq reduces
    refine ⟨clause, fun other => ?_, fun fragment => ?_⟩
    · rw [← @splitClause_eq_ok_iff _ paired name, is.splitClause_eq name, Except.ok.injEq,
        eq_comm]
    · rw [aggregationAt, map_eq_ok, read_reduction reduces]
      simp only [readReduction_eq_ok (is.splitClause_eq name) known, collectionAt_iff,
        optionalAt_iff]
      constructor
      · rintro ⟨_, ⟨collection, predicate, projection, found, test, value, rfl⟩, rfl⟩
        exact ⟨_, _, _, ⟨_, found, rfl⟩, ⟨_, test, rfl⟩, ⟨_, value, rfl⟩,
          fragment_reduce form needs ..⟩
      · rintro ⟨_, _, _, ⟨collection, found, rfl⟩, ⟨predicate, test, rfl⟩,
          ⟨projection, value, rfl⟩, rfl⟩
        exact ⟨_, ⟨collection, predicate, projection, found, test, value, rfl⟩,
          (fragment_reduce form needs ..).symm⟩

/-- A mean over those that pass a test, whose comma is in brackets; and the same with a comma that
is not. -/
theorem aggregationAt_reduction_mean :
    aggregationAt 3 [] .entity "AVG" ([.ident "xs", .keyword .whereWord, .openParen, .ident "a",
        .comma, .ident "b", .closeParen, .keyword .inWord, .ident "ys", .fatArrow,
        .ident "a"].map (Token.mk · 0 0)) =
      .ok ⟨"statistics.mean(item.a for item in self.xs if ((item.a, item.b) in item.ys))",
        ⟨.empty, true⟩⟩ ∧
    ∃ cause, aggregationAt 3 [] .entity "AVG" [⟨.ident "xs", 0, 2⟩, ⟨.comma, 2, 3⟩] =
      .error (.aggregationClause "AVG" cause) := by
  constructor
  · have split : splitClause "AVG" ([.ident "xs", .keyword .whereWord, .openParen, .ident "a",
        .comma, .ident "b", .closeParen, .keyword .inWord, .ident "ys", .fatArrow,
        .ident "a"].map (Token.mk · 0 0)) = .ok ⟨[⟨.ident "xs", 0, 0⟩],
          some ([.openParen, .ident "a", .comma, .ident "b", .closeParen, .keyword .inWord,
            .ident "ys"].map (Token.mk · 0 0)), some [⟨.ident "a", 0, 0⟩]⟩ := rfl
    have known : "AVG" ∈ reductions := by decide
    obtain ⟨clause, only, compiles⟩ := (aggregationAt_reduction 3 [] .entity known (by decide)).2
      fun malformed => malformed.splitClause_ne _ _ split
    obtain rfl := (only _).1 ((splitClause_eq_ok_iff (by decide)).1 split)
    refine (compiles _).2 ⟨.plain "self.xs", some (.plain "((item.a, item.b) in item.ys)"),
      some (.plain "item.a"), ?_, .some (by cbv), .some (by cbv), by decide_cbv⟩
    exact @CollectionAt.reference 3 [] .entity _ ["xs"] (.whole ⟨.entity, ["xs"]⟩) rfl rfl
  · exact (aggregationAt_reduction 3 [] .entity (by decide) (by decide)).1
      (@MalformedClause.comma _ [⟨.ident "xs", 0, 2⟩] [] _ rfl rfl rfl)

namespace Aggregation

/-- The collection `C`, or those of its elements `v` that pass the test `P`. -/
def sourceForm (v C : String) (predicate : Option String) : String :=
  match predicate with
  | none => C
  | some P => s!"({v} for {v} in {C} if {P})"

def extremeForm (f elements parameter key : String) : String :=
  s!"{f}({elements}, key=lambda {parameter}: {key})"

def topForm (count elements parameter key : String) : String :=
  s!"sorted({elements}, key=lambda {parameter}: {key}, reverse=True)[:{count}]"

/-- The codes of the parts of a keyed aggregation. -/
structure KeyedCodes where
  collection : Fragment
  predicate : Option Fragment
  parameter : String
  key : Fragment

namespace KeyedCodes

/-- The text of what the key is applied to, in a comprehension with the variable `v` if there is a
test. -/
def elements (codes : KeyedCodes) (v : String) : String :=
  sourceForm v codes.collection.code (codes.predicate.map Fragment.code)

def needs (codes : KeyedCodes) : List Needs :=
  codes.collection.needs :: codes.predicate.toList.map Fragment.needs ++ [codes.key.needs]

end KeyedCodes

/-- The arguments are those of a keyed aggregation whose parts have these codes, each in its
scope. -/
def KeyedAt (levels : Nat) (source : List Char) (scope : Scope) (parts : List (List Token))
    (codes : KeyedCodes) : Prop :=
  ∃ clause body, IsKeyed parts clause ⟨codes.parameter, body⟩ ∧
    CollectionAt levels source scope clause.collection codes.collection ∧
    OptionalAt levels source (scope.element scope.nextVar) clause.predicate codes.predicate ∧
    sliceAt levels source (scope.lambda codes.parameter) body = .ok codes.key

theorem sourceForm_eq (v C : String) (predicate : Option String) :
    sourceForm v C predicate = filtered v C predicate := by
  apply String.toList_injective
  unfold sourceForm filtered generator
  cases predicate <;> simp [toString]

section Reading

variable {levels : Nat} {source : List Char} {scope : Scope}

/-- The codes of what has been read for a keyed aggregation. -/
def Source.codes (found : Source) (parameter : String) (key : Expr) : KeyedCodes :=
  ⟨found.collection.fragment, found.predicate.map Expr.fragment, parameter, key.fragment⟩

theorem Source.elements_codes (found : Source) (parameter : String) (key : Expr) :
    (found.codes parameter key).elements found.var =
      filtered found.var found.collection.render (Expr.renderOption found.predicate) := by
  rw [KeyedCodes.elements, sourceForm_eq, Expr.renderOption_eq]
  rfl

theorem Source.needs_codes (found : Source) (parameter : String) (key : Expr) :
    (found.codes parameter key).needs =
      (found.collection :: found.predicate.toList ++ [key]).map Expr.needs := by
  simp [KeyedCodes.needs, Source.codes, Expr.fragment, Expr.needs_toList]

theorem fragment_extreme (which : Extreme) (found : Source) (parameter : String) (key : Expr) :
    (Expr.extreme which found.var found.collection found.predicate parameter key).fragment =
      ⟨extremeForm which.function ((found.codes parameter key).elements found.var) parameter
          key.fragment.code, .joinAll (found.codes parameter key).needs⟩ := by
  have needs : (Expr.extreme which found.var found.collection found.predicate parameter key).needs =
      .joinAll (found.codes parameter key).needs := by
    rw [Expr.needs_eq, found.needs_codes]
    rfl
  rw [Expr.fragment, needs, Expr.render, found.elements_codes]
  rfl

theorem fragment_top (count : Expr) (found : Source) (parameter : String) (key : Expr) :
    (Expr.top count found.var found.collection found.predicate parameter key).fragment =
      ⟨topForm count.fragment.code ((found.codes parameter key).elements found.var) parameter
          key.fragment.code,
        .joinAll (count.fragment.needs :: (found.codes parameter key).needs)⟩ := by
  have needs : (Expr.top count found.var found.collection found.predicate parameter key).needs =
      .joinAll (count.fragment.needs :: (found.codes parameter key).needs) := by
    rw [Expr.needs_eq, found.needs_codes]
    rfl
  rw [Expr.fragment, needs, Expr.render, found.elements_codes]
  rfl

/-- The parts of a keyed aggregation compile if they are read, and then they have the codes of what
has been read. -/
theorem keyedAt_iff {parts : List (List Token)} {codes : KeyedCodes} (name : String)
    (paired : ∀ part ∈ parts, Paired part) :
    KeyedAt levels source scope parts codes ↔
      ∃ clause key found body, splitKeyed name parts = .ok (clause, key) ∧
        (readSource (readWhole (Grammar.readerAt levels) source) source scope clause).result =
          .ok found ∧
        (readWhole (Grammar.readerAt levels) source (scope.lambda key.parameter)
          key.body).result = .ok body ∧
        codes = found.codes key.parameter body := by
  simp only [KeyedAt, collectionAt_iff, optionalAt_iff, sliceAt_eq_ok, readSource_eq_ok,
    splitKeyed_eq_ok_iff paired]
  constructor
  · obtain ⟨collection, predicate, parameter, key⟩ := codes
    rintro ⟨clause, body, keyed, ⟨expr, found, rfl⟩, ⟨test, passes, rfl⟩, ⟨value, read, rfl⟩⟩
    exact ⟨clause, _, _, value, keyed, ⟨expr, test, found, passes, rfl⟩, read, rfl⟩
  · rintro ⟨clause, key, _, body, keyed, ⟨expr, test, found, passes, rfl⟩, read, rfl⟩
    exact ⟨clause, key.body, keyed, ⟨expr, found, rfl⟩, ⟨test, passes, rfl⟩, ⟨body, read, rfl⟩⟩

theorem readExtreme_eq_ok {read : SliceReader} {which : Extreme} {name : String}
    {arguments : List Token} {expr : Expr} :
    (readExtreme read source which name arguments scope).result = .ok expr ↔
      ∃ parts clause key found body, splitArguments arguments = .ok parts ∧
        splitKeyed name parts = .ok (clause, key) ∧
        (readSource read source scope clause).result = .ok found ∧
        (read (scope.lambda key.parameter) key.body).result = .ok body ∧
        expr = .extreme which found.var found.collection found.predicate key.parameter body := by
  simp only [readExtreme, Traced.result_bind_eq_ok, Traced.result_liftM, Traced.result_pure,
    Except.ok.injEq, Prod.exists, exists_and_left, @eq_comm _ expr]

theorem readTop_eq_ok {read : SliceReader} {name : String} {arguments : List Token} {expr : Expr} :
    (readTop read source name arguments scope).result = .ok expr ↔
      ∃ first parts count clause key found body,
        splitArguments arguments = .ok (first :: parts) ∧
        (read scope first).result = .ok count ∧ splitKeyed name parts = .ok (clause, key) ∧
        (readSource read source scope clause).result = .ok found ∧
        (read (scope.lambda key.parameter) key.body).result = .ok body ∧
        expr = .top count found.var found.collection found.predicate key.parameter body := by
  rw [readTop, Traced.result_bind_eq_ok, Traced.result_liftM]
  constructor
  · rintro ⟨parts, split, success⟩
    match parts, success with
    | first :: second :: rest, success =>
      simp only [Traced.result_bind_eq_ok, Traced.result_liftM, Traced.result_pure,
        Except.ok.injEq, Prod.exists] at success
      obtain ⟨count, counted, clause, key, keyed, found, taken, body, read, rfl⟩ := success
      exact ⟨first, _, count, clause, key, found, body, split, counted, keyed, taken, read, rfl⟩
  · rintro ⟨first, parts, count, clause, key, found, body, split, counted, keyed, taken, read, rfl⟩
    refine ⟨_, split, ?_⟩
    cases parts with
    | nil => cases keyed
    | cons second rest =>
      simp only [Traced.result_bind_eq_ok, Traced.result_liftM, Traced.result_pure,
        Except.ok.injEq, Prod.exists]
      exact ⟨count, counted, clause, key, keyed, found, taken, body, read, rfl⟩

theorem extreme_eq_ok {which : Extreme} {name : String} {arguments : List Token}
    {fragment : Fragment} :
    (readExtreme (readWhole (Grammar.readerAt levels) source) source which name arguments
        scope).result.map Expr.fragment = .ok fragment ↔
      ∃ parts codes, IsArguments parts arguments ∧ KeyedAt levels source scope parts codes ∧
        fragment = ⟨extremeForm which.function (codes.elements scope.nextVar) codes.parameter
          codes.key.code, .joinAll codes.needs⟩ := by
  simp only [map_eq_ok, readExtreme_eq_ok, splitArguments_eq_ok]
  constructor
  · rintro ⟨_, ⟨parts, clause, key, found, body, is, keyed, taken, read, rfl⟩, rfl⟩
    have compiled := (keyedAt_iff name is.paired).2
      ⟨clause, key, found, body, keyed, taken, read, rfl⟩
    refine ⟨parts, _, is, compiled, ?_⟩
    rw [fragment_extreme, var_of_readSource taken]
    rfl
  · rintro ⟨parts, codes, is, compiled, rfl⟩
    obtain ⟨clause, key, found, body, keyed, taken, read, rfl⟩ :=
      (keyedAt_iff name is.paired).1 compiled
    refine ⟨_, ⟨parts, clause, key, found, body, is, keyed, taken, read, rfl⟩, ?_⟩
    rw [fragment_extreme, var_of_readSource taken]
    rfl

theorem top_eq_ok {name : String} {arguments : List Token} {fragment : Fragment} :
    (readTop (readWhole (Grammar.readerAt levels) source) source name arguments
        scope).result.map Expr.fragment = .ok fragment ↔
      ∃ count parts amount codes, IsArguments (count :: parts) arguments ∧
        sliceAt levels source scope count = .ok amount ∧
        KeyedAt levels source scope parts codes ∧
        fragment = ⟨topForm amount.code (codes.elements scope.nextVar) codes.parameter
          codes.key.code, .joinAll (amount.needs :: codes.needs)⟩ := by
  simp only [map_eq_ok, readTop_eq_ok, splitArguments_eq_ok, sliceAt_eq_ok]
  constructor
  · rintro ⟨_, ⟨first, parts, count, clause, key, found, body, is, counted, keyed, taken, read,
      rfl⟩, rfl⟩
    have compiled := (keyedAt_iff name fun part member => is.paired part (.tail _ member)).2
      ⟨clause, key, found, body, keyed, taken, read, rfl⟩
    refine ⟨first, parts, _, _, is, ⟨count, counted, rfl⟩, compiled, ?_⟩
    rw [fragment_top, var_of_readSource taken]
    rfl
  · rintro ⟨first, parts, _, codes, is, ⟨count, counted, rfl⟩, compiled, rfl⟩
    obtain ⟨clause, key, found, body, keyed, taken, read, rfl⟩ :=
      (keyedAt_iff name fun part member => is.paired part (.tail _ member)).1 compiled
    refine ⟨_, ⟨first, parts, count, clause, key, found, body, is, counted, keyed, taken, read,
      rfl⟩, ?_⟩
    rw [fragment_top, var_of_readSource taken]
    rfl

theorem readExtreme_eq_error {read : SliceReader} {name : String} {arguments : List Token}
    {parts : List (List Token)} (which : Extreme) (is : IsArguments parts arguments)
    (other : ¬∃ clause key, IsKeyed parts clause key) :
    ∃ cause, (readExtreme read source which name arguments scope).result =
      .error (.aggregationClause name cause) := by
  obtain ⟨cause, failed⟩ := splitKeyed_eq_error is.paired other name
  refine ⟨cause, ?_⟩
  rw [readExtreme, Traced.result_bind, Traced.result_liftM, splitArguments_eq_ok.2 is]
  simp only [bind, Except.bind, failed]
  rfl

theorem readTop_eq_error {read : SliceReader} {name : String} {arguments : List Token}
    {parts : List (List Token)} (is : IsArguments parts arguments)
    (counts : ∀ count ∈ parts.head?, ∃ expr, (read scope count).result = .ok expr)
    (other : ¬∃ count keyed clause key, parts = count :: keyed ∧ IsKeyed keyed clause key) :
    ∃ cause, (readTop read source name arguments scope).result =
      .error (.aggregationClause name cause) := by
  rw [readTop, Traced.result_bind, Traced.result_liftM, splitArguments_eq_ok.2 is]
  match parts with
  | [] => exact ⟨_, rfl⟩
  | [_] => exact ⟨_, rfl⟩
  | count :: second :: rest =>
    obtain ⟨expr, counted⟩ := counts count rfl
    have shapeless : ¬∃ clause key, IsKeyed (second :: rest) clause key := by
      rintro ⟨clause, key, keyed⟩
      exact other ⟨count, _, clause, key, rfl, keyed⟩
    obtain ⟨cause, failed⟩ := splitKeyed_eq_error
      (fun part member => is.paired part (.tail _ member)) shapeless name
    refine ⟨cause, ?_⟩
    simp only [bind, Except.bind, counted, failed]
    rfl

theorem read_extreme {name f : String} (member : (name, f) ∈ [("MINBY", "min"), ("MAXBY", "max")]) :
    ∃ which : Extreme, which.function = f ∧ ∀ read source arguments scope,
      (Aggregation.read read source name arguments scope).result =
        (readExtreme read source which name arguments scope).result := by
  simp only [List.mem_cons, Prod.mk.injEq, List.not_mem_nil, or_false] at member
  rcases member with ⟨rfl, rfl⟩ | ⟨rfl, rfl⟩
  · exact ⟨.least, rfl, fun _ _ _ _ => rfl⟩
  · exact ⟨.greatest, rfl, fun _ _ _ _ => rfl⟩

end Reading

end Aggregation

/-- An aggregation with a key. It compiles if and only if its arguments are a key with or without
the clause of a source in front of it, for the topmost elements behind a count, and each part
compiles in its scope; its code is made of theirs, and it needs what they need. Arguments of another
shape are a malformed clause. -/
theorem aggregationAt_keyed (levels : Nat) (source : List Char) (scope : Scope)
    (arguments : List Token) :
    (∀ name f, (name, f) ∈ [("MINBY", "min"), ("MAXBY", "max")] →
      (∀ fragment, aggregationAt levels source scope name arguments = .ok fragment ↔
        ∃ parts codes, IsArguments parts arguments ∧ KeyedAt levels source scope parts codes ∧
          fragment = ⟨extremeForm f (codes.elements scope.nextVar) codes.parameter codes.key.code,
            .joinAll codes.needs⟩) ∧
      (∀ parts, IsArguments parts arguments → (¬∃ clause key, IsKeyed parts clause key) →
        ∃ cause, aggregationAt levels source scope name arguments =
          .error (.aggregationClause name cause))) ∧
    (∀ fragment, aggregationAt levels source scope "TOPN" arguments = .ok fragment ↔
      ∃ count parts amount codes, IsArguments (count :: parts) arguments ∧
        sliceAt levels source scope count = .ok amount ∧
        KeyedAt levels source scope parts codes ∧
        fragment = ⟨topForm amount.code (codes.elements scope.nextVar) codes.parameter
          codes.key.code, .joinAll (amount.needs :: codes.needs)⟩) ∧
    (∀ parts, IsArguments parts arguments →
      (∀ count ∈ parts.head?, ∃ amount, sliceAt levels source scope count = .ok amount) →
      (¬∃ count keyed clause key, parts = count :: keyed ∧ IsKeyed keyed clause key) →
      ∃ cause, aggregationAt levels source scope "TOPN" arguments =
        .error (.aggregationClause "TOPN" cause)) := by
  refine ⟨fun name f member => ?_, fun fragment => top_eq_ok, fun parts is counts other => ?_⟩
  · obtain ⟨which, rfl, read⟩ := read_extreme member
    refine ⟨fun fragment => ?_, fun parts is other => ?_⟩
    · rw [aggregationAt, read]
      exact extreme_eq_ok
    · obtain ⟨cause, failed⟩ := readExtreme_eq_error which is other
      exact ⟨cause, by rw [aggregationAt, read, failed]; rfl⟩
  · have counted : ∀ count ∈ parts.head?, ∃ expr,
        (readWhole (Grammar.readerAt levels) source scope count).result = .ok expr := by
      intro count first
      obtain ⟨amount, compiled⟩ := counts count first
      obtain ⟨expr, read, -⟩ := sliceAt_eq_ok.1 compiled
      exact ⟨expr, read⟩
    obtain ⟨cause, failed⟩ := readTop_eq_error is counted other
    exact ⟨cause, congrArg (Except.map Expr.fragment) failed⟩

/-- The topmost elements of those that pass a test; and a largest one with a name for its key. -/
theorem aggregationAt_keyed_top :
    aggregationAt 3 [] .entity "TOPN" ([.number "2", .comma, .ident "xs", .keyword .whereWord,
        .ident "y", .comma, .ident "p", .fatArrow, .ident "p", .dot, .ident "z"].map
          (Token.mk · 0 0)) =
      .ok (.plain
        "sorted((item for item in self.xs if item.y), key=lambda p: p.z, reverse=True)[:2]") ∧
    ∃ cause, aggregationAt 3 [] .entity "MAXBY" ([.ident "xs", .comma, .ident "y"].map
        (Token.mk · 0 0)) = .error (.aggregationClause "MAXBY" cause) := by
  constructor
  · obtain ⟨-, compiles, -⟩ := aggregationAt_keyed 3 [] .entity ([.number "2", .comma, .ident "xs",
      .keyword .whereWord, .ident "y", .comma, .ident "p", .fatArrow, .ident "p", .dot,
      .ident "z"].map (Token.mk · 0 0))
    have keyed : IsKeyed [[.ident "xs", .keyword .whereWord, .ident "y"].map (Token.mk · 0 0),
        [.ident "p", .fatArrow, .ident "p", .dot, .ident "z"].map (Token.mk · 0 0)]
          ⟨[⟨.ident "xs", 0, 0⟩], some [⟨.ident "y", 0, 0⟩], none⟩
          ⟨"p", [.ident "p", .dot, .ident "z"].map (Token.mk · 0 0)⟩ :=
      (@splitKeyed_eq_ok_iff "TOPN" _ _ _ (by decide)).1 rfl
    refine (compiles _).2 ⟨[⟨.number "2", 0, 0⟩], _, .plain "2",
      ⟨.plain "self.xs", some (.plain "item.y"), "p", .plain "p.z"⟩, splitArguments_eq_ok.1 rfl,
      by cbv, ⟨_, _, keyed, ?_, .some (by cbv), by cbv⟩, rfl⟩
    exact @CollectionAt.reference 3 [] .entity _ ["xs"] (.whole ⟨.entity, ["xs"]⟩) rfl rfl
  · refine ((aggregationAt_keyed 3 [] .entity _).1 "MAXBY" "max" (by simp)).2
      [[⟨.ident "xs", 0, 0⟩], [⟨.ident "y", 0, 0⟩]] (splitArguments_eq_ok.1 rfl) ?_
    rintro ⟨clause, key, keyed⟩
    cases (@splitKeyed_eq_ok_iff "MAXBY" _ _ _ (by decide)).2 keyed

end Formulary
