import Mathlib
import Formulary.Proofs.Precedence
import Formulary.Proofs.Report

set_option autoImplicit false

namespace Formulary

/-- The code of tokens that are one expression, at a place with this scope and so many levels of
nesting left. -/
def sliceAt (levels : Nat) (source : List Char) (scope : Scope) (tokens : List Token) :
    Except Fault Fragment :=
  (readWhole (Grammar.readerAt levels) source scope tokens).result.map Expr.fragment

/-- The code of a call, from its name and the tokens between its brackets. -/
def callAt (levels : Nat) (source : List Char) (scope : Scope) (name : String)
    (arguments : List Token) : Except Fault Fragment :=
  (Call.read (readWhole (Grammar.readerAt levels) source) source scope name
    arguments).result.map Expr.fragment

theorem map_eq_ok {α β : Type} {result : Except Fault α} {f : α → β} {value : β} :
    result.map f = .ok value ↔ ∃ found, result = .ok found ∧ value = f found := by
  cases result <;> simp [Except.map, eq_comm]

theorem sliceAt_eq_ok {levels : Nat} {source : List Char} {scope : Scope} {tokens : List Token}
    {fragment : Fragment} :
    sliceAt levels source scope tokens = .ok fragment ↔
      ∃ expr, (readWhole (Grammar.readerAt levels) source scope tokens).result = .ok expr ∧
        fragment = expr.fragment := map_eq_ok

/-- Pieces that are compiled one by one are read one by one. -/
theorem forall₂_sliceAt {levels : Nat} {source : List Char} {scope : Scope}
    {parts : List (List Token)} {fragments : List Fragment} :
    List.Forall₂ (fun part fragment => sliceAt levels source scope part = .ok fragment)
        parts fragments ↔
      ∃ exprs, List.Forall₂ (fun part expr =>
          (readWhole (Grammar.readerAt levels) source scope part).result = .ok expr) parts exprs ∧
        fragments = exprs.map Expr.fragment := by
  induction parts generalizing fragments with
  | nil =>
    constructor
    · rintro ⟨⟩
      exact ⟨[], .nil, rfl⟩
    · rintro ⟨_, ⟨⟩, rfl⟩
      exact .nil
  | cons part parts ih =>
    constructor
    · rintro (_ | ⟨first, others⟩)
      obtain ⟨expr, taken, rfl⟩ := sliceAt_eq_ok.1 first
      obtain ⟨exprs, each, rfl⟩ := ih.1 others
      exact ⟨expr :: exprs, .cons taken each, rfl⟩
    · rintro ⟨_, _ | ⟨taken, each⟩, rfl⟩
      exact .cons (sliceAt_eq_ok.2 ⟨_, taken, rfl⟩) (ih.2 ⟨_, each, rfl⟩)

namespace Expr

theorem renderAll_eq (exprs : List Expr) :
    renderAll exprs = (exprs.map fragment).map Fragment.code := by
  induction exprs with
  | nil => rfl
  | cons expr exprs ih =>
    rw [renderAll, ih]
    rfl

end Expr

namespace Call

/-- The argument starts with `axis=` or `index=`, in any mix of upper and lower case. -/
def StartsWithKeyword (argument : List Token) : Prop :=
  ∃ word sign value spelled, argument = word :: sign :: value ∧ word.kind = .ident spelled ∧
    (spelled.toLower = "axis" ∨ spelled.toLower = "index") ∧ sign.kind = .equal

theorem ArgumentKey.ofName?_eq_none {name : String} :
    ofName? name = none ↔ ¬(name.toLower = "axis" ∨ name.toLower = "index") := by
  unfold ofName?
  split <;> simp_all

theorem keyword?_eq_none {argument : List Token} :
    keyword? argument = none ↔ ¬StartsWithKeyword argument := by
  constructor
  · rintro absent ⟨⟨_, _, _⟩, ⟨_, _, _⟩, value, spelled, rfl, rfl, named, rfl⟩
    have unknown : ArgumentKey.ofName? spelled = none := by simpa [keyword?] using absent
    exact ArgumentKey.ofName?_eq_none.1 unknown named
  · intro plain
    cases found : keyword? argument with
    | none => rfl
    | some given =>
      obtain ⟨word, sign, spelled, rfl, kind, known, equals⟩ := keyword?_eq_some found
      refine absurd ⟨word, sign, given.2, spelled, rfl, kind, ?_, equals⟩ plain
      by_contra other
      rw [ArgumentKey.ofName?_eq_none.2 other] at known
      cases known

variable {read : SliceReader} {scope : Scope} {signature : Signature}

theorem keyword?_of_readAll {parts : List (List Token)} {exprs : List Expr}
    (success : (readAll read scope signature parts).result = .ok exprs) :
    ∀ part ∈ parts, keyword? part = none := by
  induction parts generalizing exprs with
  | nil => simp
  | cons part parts ih =>
    rw [readAll, Traced.result_bind_eq_ok] at success
    obtain ⟨first, taken, success⟩ := success
    obtain ⟨others, found, -⟩ := Traced.result_bind_eq_ok.1 success
    refine List.forall_mem_cons.2 ⟨?_, ih found⟩
    cases given : keyword? part with
    | none => rfl
    | some key =>
      rw [readPositional, given] at taken
      cases taken

/-- A call of the table, as soon as its arguments are told apart. -/
theorem read_split {source : List Char} {name : String} {tokens : List Token}
    {parts : List (List Token)} (found : Signature.lookup? name = some signature)
    (table : Aggregation.isRelational name.toUpper tokens scope = false)
    (split : splitArguments tokens = .ok parts) :
    (Call.read read source scope name tokens).result =
      if signature.arity.accepts parts.length then
        (readShape read source scope signature parts).result
      else .error (arityFault signature parts.length) := by
  have upper : Signature.lookup? name.toUpper = some signature := by
    rwa [Signature.lookup?, toUpper_toUpper]
  simp only [Call.read, table, upper, Bool.false_eq_true, ↓reduceIte]
  rw [Traced.result_bind, Traced.result_liftM, split]
  simp only [bind, Except.bind]
  split <;> rfl

/-- Arguments that are all expressions are read one by one. -/
theorem readShape_eq_ok {source : List Char} {parts : List (List Token)} {expr : Expr}
    (shape : signature.shape = .positional ∨ signature.shape = .buildingBlock) :
    (readShape read source scope signature parts).result = .ok expr ↔
      (∀ part ∈ parts, keyword? part = none) ∧
        ∃ exprs, List.Forall₂ (fun part expr => (read scope part).result = .ok expr) parts exprs ∧
          expr = .call signature exprs := by
  have each : (readShape read source scope signature parts).result = .ok expr ↔
      ∃ exprs, (readAll read scope signature parts).result = .ok exprs ∧
        expr = .call signature exprs := by
    unfold readShape
    rcases shape with shape | shape <;>
      simp only [shape, Traced.result_bind_eq_ok, Traced.result_pure, Except.ok.injEq,
        @eq_comm _ expr]
  rw [each]
  constructor
  · rintro ⟨exprs, success, rfl⟩
    have plain := keyword?_of_readAll success
    exact ⟨plain, exprs, (Operators.readAll_eq_ok plain).1 success, rfl⟩
  · rintro ⟨plain, exprs, taken, rfl⟩
    exact ⟨exprs, (Operators.readAll_eq_ok plain).2 taken, rfl⟩

end Call

/-- What a function of the table adds to the needs of its arguments. -/
def Signature.ownNeeds (signature : Signature) : Needs :=
  ⟨.ofList (if signature.shape = .buildingBlock then [signature.name] else []), false⟩

theorem fragment_call (signature : Signature) (exprs : List Expr) :
    (Expr.call signature exprs).fragment =
      ⟨signature.template.fill ((exprs.map Expr.fragment).map Fragment.code) [],
        .joinAll (signature.ownNeeds :: (exprs.map Expr.fragment).map Fragment.needs)⟩ := by
  have own : Expr.callNeeds signature = signature.ownNeeds := by
    unfold Expr.callNeeds Signature.ownNeeds Signature.isBuildingBlock
    by_cases block : signature.shape = .buildingBlock <;> simp [block] <;> rfl
  have needs : (Expr.call signature exprs).needs =
      .joinAll (signature.ownNeeds :: (exprs.map Expr.fragment).map Fragment.needs) := by
    rw [Expr.needs_eq, Expr.ownNeeds, own, List.map_map]
    rfl
  rw [Expr.fragment, needs, Expr.render, Expr.renderAll_eq]

/-- A call of a function of the table, whose arguments have been told apart. If their number is not
accepted, that is the fault, whatever the arguments are. Otherwise a function that takes expressions
compiles if and only if no argument has a keyword and each of them compiles on its own, and its
code is the template filled with theirs. -/
theorem callAt_table {name : String} {signature : Signature} {scope : Scope}
    {arguments : List Token} {parts : List (List Token)} (levels : Nat) (source : List Char)
    (found : Signature.lookup? name = some signature)
    (table : Aggregation.isRelational name.toUpper arguments scope = false)
    (split : splitArguments arguments = .ok parts) :
    signature.name = name.toUpper ∧
    (signature.arity.accepts parts.length = false →
      callAt levels source scope name arguments =
        .error (.arityMismatch signature.name signature.arity.least signature.arity.most
          parts.length)) ∧
    (signature.arity.accepts parts.length = true →
      signature.shape = .positional ∨ signature.shape = .buildingBlock →
      ∀ fragment, callAt levels source scope name arguments = .ok fragment ↔
        (∀ part ∈ parts, ¬Call.StartsWithKeyword part) ∧
        ∃ pieces, List.Forall₂ (fun part piece => sliceAt levels source scope part = .ok piece)
            parts pieces ∧
          fragment = ⟨signature.template.fill (pieces.map Fragment.code) [],
            .joinAll (signature.ownNeeds :: pieces.map Fragment.needs)⟩) := by
  refine ⟨(Signature.name_of_lookup? found).2, ?_, ?_⟩
  · intro refused
    rw [callAt, Call.read_split found table split, refused]
    rfl
  · intro accepted shape fragment
    rw [callAt, map_eq_ok, Call.read_split found table split, if_pos accepted]
    simp only [Call.readShape_eq_ok shape, Call.keyword?_eq_none]
    constructor
    · rintro ⟨_, ⟨plain, exprs, taken, rfl⟩, rfl⟩
      exact ⟨plain, _, forall₂_sliceAt.2 ⟨exprs, taken, rfl⟩, fragment_call signature exprs⟩
    · rintro ⟨plain, pieces, each, rfl⟩
      obtain ⟨exprs, taken, rfl⟩ := forall₂_sliceAt.1 each
      exact ⟨_, ⟨plain, exprs, taken, rfl⟩, (fragment_call signature exprs).symm⟩

/-- A building block with one argument is refused before that argument, which is no expression, is
looked at; with two that compile it is their call. -/
theorem callAt_table_block :
    callAt 3 [] .entity "Shift" [⟨.star, 0, 1⟩] = .error (.arityMismatch "SHIFT" 2 2 1) ∧
      callAt 3 [] .entity "Shift" [⟨.ident "x", 0, 1⟩, ⟨.comma, 1, 2⟩, ⟨.minus, 3, 4⟩,
          ⟨.number "1", 4, 5⟩] =
        .ok ⟨"SHIFT(self.x, -1)", ⟨.ofList ["SHIFT"], false⟩⟩ := by
  have upper : "Shift".toUpper = "SHIFT" := by
    apply String.toList_injective
    rw [String.toUpper, String.toList_map]
    decide
  have found : Signature.lookup? "Shift" = some (.block "SHIFT" (.exactly 2)) := by
    rw [Signature.lookup?, upper]
    decide_cbv
  have plain (tokens : List Token) : Aggregation.isRelational "Shift".toUpper tokens .entity =
      false := by
    rw [upper, Aggregation.isRelational, if_neg (by decide)]
    decide
  have alone : splitArguments [⟨.star, 0, 1⟩] = .ok [[⟨.star, 0, 1⟩]] := rfl
  have pair : splitArguments [⟨.ident "x", 0, 1⟩, ⟨.comma, 1, 2⟩, ⟨.minus, 3, 4⟩,
      ⟨.number "1", 4, 5⟩] =
      .ok [[⟨.ident "x", 0, 1⟩], [⟨.minus, 3, 4⟩, ⟨.number "1", 4, 5⟩]] := rfl
  have first : sliceAt 3 [] .entity [⟨.ident "x", 0, 1⟩] = .ok (.plain "self.x") := by cbv
  have second : sliceAt 3 [] .entity [⟨.minus, 3, 4⟩, ⟨.number "1", 4, 5⟩] = .ok (.plain "-1") := by
    cbv
  obtain ⟨-, refused, -⟩ := callAt_table 3 [] found (plain _) alone
  obtain ⟨-, -, accepted⟩ := callAt_table 3 [] found (plain _) pair
  refine ⟨refused rfl, (accepted rfl (.inr rfl) _).2 ⟨?_, _, .cons first (.cons second .nil), ?_⟩⟩
  · simp only [← Call.keyword?_eq_none]
    decide
  · decide_cbv

end Formulary
