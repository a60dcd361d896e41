import Mathlib
import Formulary.Proofs.Aggregates
import Formulary.Proofs.CallForms
import Formulary.Proofs.Slicing

set_option autoImplicit false

namespace Formulary

/-- A dotted reference: names, with a dot or an arrow between each two of them. -/
inductive IsReference : List Token → List String → Prop where
  | name {token : Token} {name : String} (named : token.kind = .ident name) :
      IsReference [token] [name]
  | member {token mark : Token} {rest : List Token} {name : String} {names : List String}
      (named : token.kind = .ident name) (marks : mark.kind = .dot ∨ mark.kind = .arrow)
      (more : IsReference rest names) : IsReference (token :: mark :: rest) (name :: names)

theorem Kind.isMemberMark_iff {kind : Kind} :
    kind.isMemberMark = true ↔ kind = .dot ∨ kind = .arrow := by
  cases kind <;> simp [isMemberMark]

theorem referenceNames?_eq_some_iff {tokens : List Token} {names : List String} :
    referenceNames? tokens = some names ↔ IsReference tokens names := by
  constructor
  · intro dotted
    fun_induction referenceNames? tokens generalizing names with
    | case1 => cases dotted
    | case2 token =>
      obtain ⟨name, named, rfl⟩ := Option.map_eq_some_iff.1 dotted
      exact .name (Kind.name?_eq_some_iff.1 named)
    | case3 token mark rest isMark ih =>
      obtain ⟨name, named, dotted⟩ := Option.bind_eq_some_iff.1 dotted
      obtain ⟨others, found, same⟩ := Option.bind_eq_some_iff.1 dotted
      cases same
      exact .member (Kind.name?_eq_some_iff.1 named) (Kind.isMemberMark_iff.1 isMark) (ih found)
    | case4 => cases dotted
  · intro reference
    induction reference with
    | name named => simp [referenceNames?, named, Kind.name?]
    | member named marks more ih =>
      simp [referenceNames?, named, Kind.name?, Kind.isMemberMark_iff.2 marks, ih]

theorem IsReference.of_kinds {tokens others : List Token} {names : List String}
    (reference : IsReference tokens names)
    (same : others.map Token.kind = tokens.map Token.kind) : IsReference others names := by
  rw [← referenceNames?_eq_some_iff] at reference ⊢
  rw [← reference, (Alike.of_kinds same).referenceNames?_eq]

open Aggregation

theorem callAt_relational {name : String} {arguments : List Token} {scope : Scope} (levels : Nat)
    (source : List Char) (relational : isRelational name.toUpper arguments scope = true) :
    callAt levels source scope name arguments =
      aggregationAt levels source scope name.toUpper arguments := by
  simp only [callAt, aggregationAt, Call.read, relational, ↓reduceIte]

/-- A reduction of no more than a reference runs over the collection that the reference is. -/
theorem aggregationAt_reference {name : String} {tokens : List Token} {names : List String}
    {collection : Collection} {scope : Scope} {source : List Char} (levels : Nat)
    (reduces : name ∈ reductions) (reference : IsReference tokens names)
    (found : scope.collection names (sourceText source tokens) = .ok collection) :
    aggregationAt levels source scope name tokens =
      .ok ⟨reductionForm name scope.nextVar collection.render none none,
        reductionNeeds name⟩ := by
  have dotted := referenceNames?_eq_some_iff.2 reference
  have is : IsClause tokens ⟨tokens, none, none⟩ :=
    ⟨⟨[], [], by simp, rfl, rfl⟩, .of_dotted dotted, by simp, by simp⟩
  obtain ⟨reducer, known, form, needs⟩ := reductionForm_eq reduces
  obtain ⟨expr, read, code⟩ := collectionAt_iff.1
    (@CollectionAt.reference levels _ _ _ _ _ dotted found)
  have reduced := (readReduction_eq_ok (is.splitClause_eq name) known).2
    ⟨expr, none, none, read, rfl, rfl, rfl⟩
  rw [aggregationAt, map_eq_ok, read_reduction reduces]
  refine ⟨_, reduced, ?_⟩
  rw [fragment_reduce form needs, ← code]
  simp only [Option.map_none, Option.toList_none, List.append_nil, List.map_nil]
  refine congrArg (Fragment.mk _) ?_
  apply Needs.eq_of_additive
  intro wanted additive
  simp [Needs.joinAll_iff additive, Fragment.plain, additive.none]

/-- A reference is counted as the collection that it is, wherever it stands in its text. -/
theorem Formula.compile_count {condition : String} {tokens : List Token} {names : List String}
    {collection : Collection} (lexed : tokenize condition = .ok tokens)
    (reference : IsReference tokens names)
    (found : ∀ text, Scope.entity.collection names text = .ok collection) :
    (compile ("COUNT(" ++ condition ++ ")")).result =
      .ok (.plain ("len(" ++ collection.render ++ ")")) := by
  have spelled : Spells ("COUNT(" ++ condition ++ ")").toList
      (.ident "COUNT" :: .openParen :: (tokens.map Token.kind ++ [.closeParen])) := by
    have inside := spells_append lexed (by simpa using isBoundary_closeParen) (spells_close .nil)
    have whole := @spells_word "COUNT" '(' _ _ _ (by cbv) isBoundary_openParen (spells_open inside)
    simpa using whole
  obtain ⟨all, again, same⟩ := spelled 0
  simp only [List.map_eq_cons_iff, List.map_eq_append_iff, List.map_eq_nil_iff] at same
  obtain ⟨word, _, rfl, named, opening, _, rfl, opens, inside, _, rfl, sameInside, closing, _, rfl,
    closes, rfl⟩ := same
  -- Its tokens stand elsewhere in the formula, but they are of the same kinds.
  have moved := reference.of_kinds sameInside
  have closed := (closed_of_referenceNames? (referenceNames?_eq_some_iff.2 moved)).weaken
  have upper : "COUNT".toUpper = "COUNT" := by cbv
  rw [compile_eq_callAt again named opens closes closed, callAt_relational, upper,
    aggregationAt_reference 63 (by decide) moved (found _)]
  · rfl
  · rw [upper]
    rfl

/-- The tokens of a field of a collection of the entity. -/
def IsJoin (tokens : List Token) (collection field : String) : Prop :=
  ∃ first second, first ∈ [Kind.dot, Kind.arrow] ∧ second ∈ [Kind.dot, Kind.arrow] ∧
    tokens.map Token.kind =
      [.ident "this", first, .ident collection, second, .ident field]

/-- The tokens of a reference that goes further into the entity than a join does. -/
def IsBeyondJoin (tokens : List Token) : Prop :=
  ∃ names, IsReference tokens ("this" :: names) ∧ 2 < names.length

theorem isJoin_iff {tokens : List Token} {collection field : String} :
    IsJoin tokens collection field ↔ IsReference tokens ["this", collection, field] := by
  constructor
  · rintro ⟨first, second, marks, marksToo, kinds⟩
    simp only [List.map_eq_cons_iff, List.map_eq_nil_iff] at kinds
    obtain ⟨this, _, rfl, isThis, mark, _, rfl, rfl, middle, _, rfl, isCollection, further, _, rfl,
      rfl, last, _, rfl, isField, rfl⟩ := kinds
    exact .member isThis (by simpa using marks)
      (.member isCollection (by simpa using marksToo) (.name isField))
  · rintro (_ | ⟨isThis, marks, _ | ⟨isCollection, marksToo, _ | ⟨_, _, ⟨⟩⟩⟩⟩)
    exact ⟨_, _, by simpa using marks, by simpa using marksToo, by simp [*]⟩

section Outcomes

variable {condition : String} {tokens : List Token}

theorem joinCollection_join {collection field : String} (lexed : tokenize condition = .ok tokens)
    (join : IsJoin tokens collection field) :
    joinCollection condition = .ok (.projected ⟨.entity, [collection]⟩ field "item") := by
  have dotted := referenceNames?_eq_some_iff.2 (isJoin_iff.1 join)
  simp only [joinCollection, lexed, bind, Except.bind, dotted]
  rfl

theorem joinCollection_beyond (lexed : tokenize condition = .ok tokens)
    (beyond : IsBeyondJoin tokens) :
    joinCollection condition = .error (.multiDotReference (Text.trim condition)) := by
  obtain ⟨names, reference, long⟩ := beyond
  obtain ⟨collection, field, further, more, rfl⟩ :
      ∃ collection field further more, names = collection :: field :: further :: more := by
    rcases names with _ | ⟨_, _ | ⟨_, _ | ⟨_, _⟩⟩⟩ <;> simp_all
  have dotted := referenceNames?_eq_some_iff.2 reference
  simp only [joinCollection, lexed, bind, Except.bind, dotted]

theorem joinCollection_other (lexed : tokenize condition = .ok tokens)
    (notBeyond : ¬IsBeyondJoin tokens)
    (notJoin : ¬∃ collection field, IsJoin tokens collection field) :
    joinCollection condition = .error (.joinCondition (Text.trim condition)) := by
  simp only [joinCollection, lexed, bind, Except.bind]
  split
  next names dotted =>
    have reference := referenceNames?_eq_some_iff.1 dotted
    split
    next collection field => exact absurd ⟨_, _, isJoin_iff.2 reference⟩ notJoin
    next collection field more short =>
      refine absurd ⟨_, reference, ?_⟩ notBeyond
      cases more with
      | nil => exact (short rfl).elim
      | cons => simp
    · rfl
  · rfl

theorem render_join (collection field : String) :
    (Collection.projected ⟨.entity, [collection]⟩ field "item").render =
      s!"[item.{field} for item in self.{collection}]" := by
  apply String.toList_injective
  simp [Collection.render, Path.render, Receiver.text, toString]

theorem joinCollection_eq_ok_iff (lexed : tokenize condition = .ok tokens) {code : String} :
    (joinCollection condition).map Collection.render = .ok code ↔
      ∃ collection field, IsJoin tokens collection field ∧
        code = s!"[item.{field} for item in self.{collection}]" := by
  constructor
  · intro joined
    by_cases join : ∃ collection field, IsJoin tokens collection field
    · obtain ⟨collection, field, join⟩ := join
      rw [joinCollection_join lexed join] at joined
      cases joined
      exact ⟨collection, field, join, render_join collection field⟩
    · by_cases beyond : IsBeyondJoin tokens
      · rw [joinCollection_beyond lexed beyond] at joined
        cases joined
      · rw [joinCollection_other lexed beyond join] at joined
        cases joined
  · rintro ⟨collection, field, join, rfl⟩
    rw [joinCollection_join lexed join, ← render_join]
    rfl

theorem joinCollection_eq_error_iff (lexed : tokenize condition = .ok tokens) {fault : Fault} :
    joinCollection condition = .error fault ↔
      (IsBeyondJoin tokens ∧ fault = .multiDotReference (Text.trim condition)) ∨
      (¬(IsBeyondJoin tokens ∨ ∃ collection field, IsJoin tokens collection field) ∧
        fault = .joinCondition (Text.trim condition)) := by
  constructor
  · intro failed
    have notJoin : ¬∃ collection field, IsJoin tokens collection field := by
      rintro ⟨collection, field, join⟩
      rw [joinCollection_join lexed join] at failed
      cases failed
    by_cases beyond : IsBeyondJoin tokens
    · rw [joinCollection_beyond lexed beyond] at failed
      exact .inl ⟨beyond, (Except.error.inj failed).symm⟩
    · rw [joinCollection_other lexed beyond notJoin] at failed
      exact .inr ⟨not_or.2 ⟨beyond, notJoin⟩, (Except.error.inj failed).symm⟩
  · rintro (⟨beyond, rfl⟩ | ⟨neither, rfl⟩)
    · exact joinCollection_beyond lexed beyond
    · obtain ⟨notBeyond, notJoin⟩ := not_or.1 neither
      exact joinCollection_other lexed notBeyond notJoin

end Outcomes

/-- A condition is a join if and only if its tokens are a field of a collection of the entity. If
they are a longer reference into the entity, the fault says so, and otherwise the fault is that they
are no join. Counting what a condition names counts the join that it is. -/
theorem joinCollection_exact {condition : String} {tokens : List Token}
    (lexed : tokenize condition = .ok tokens) :
    (∀ code, (joinCollection condition).map Collection.render = .ok code ↔
      ∃ collection field, IsJoin tokens collection field ∧
        code = s!"[item.{field} for item in self.{collection}]") ∧
    (∀ fault, joinCollection condition = .error fault ↔
      (IsBeyondJoin tokens ∧ fault = .multiDotReference (Text.trim condition)) ∨
      (¬(IsBeyondJoin tokens ∨ ∃ collection field, IsJoin tokens collection field) ∧
        fault = .joinCondition (Text.trim condition))) ∧
    ∀ code, (joinCollection condition).map Collection.render = .ok code →
      (Formula.compile ("COUNT(" ++ condition ++ ")")).result =
        .ok (.plain ("len(" ++ code ++ ")")) := by
  refine ⟨fun code => joinCollection_eq_ok_iff lexed,
    fun fault => joinCollection_eq_error_iff lexed, fun code joined => ?_⟩
  obtain ⟨collection, field, join, rfl⟩ := (joinCollection_eq_ok_iff lexed).1 joined
  rw [← render_join]
  exact Formula.compile_count lexed (isJoin_iff.1 join) fun _ => rfl

/-- Blanks and both marks in a join; and a reference that goes one member too far. -/
theorem joinCollection_exact_marks :
    (joinCollection " this. lines->amount").map Collection.render =
      .ok "[item.amount for item in self.lines]" ∧
    (Formula.compile "COUNT( this. lines->amount)").result =
      .ok (.plain "len([item.amount for item in self.lines])") ∧
    joinCollection "this.lines.item.amount " =
      .error (.multiDotReference "this.lines.item.amount") := by
  have lexed : tokenize " this. lines->amount" = .ok [⟨.ident "this", 1, 5⟩, ⟨.dot, 5, 6⟩,
      ⟨.ident "lines", 7, 12⟩, ⟨.arrow, 12, 14⟩, ⟨.ident "amount", 14, 20⟩] := by cbv
  have longer : tokenize "this.lines.item.amount " = .ok [⟨.ident "this", 0, 4⟩, ⟨.dot, 4, 5⟩,
      ⟨.ident "lines", 5, 10⟩, ⟨.dot, 10, 11⟩, ⟨.ident "item", 11, 15⟩, ⟨.dot, 15, 16⟩,
      ⟨.ident "amount", 16, 22⟩] := by cbv
  have trimmed : Text.trim "this.lines.item.amount " = "this.lines.item.amount" := by cbv
  obtain ⟨gives, -, counts⟩ := joinCollection_exact lexed
  obtain ⟨-, faults, -⟩ := joinCollection_exact longer
  have joined := (gives "[item.amount for item in self.lines]").2
    ⟨"lines", "amount", ⟨.dot, .arrow, by simp, by simp, rfl⟩, rfl⟩
  refine ⟨joined, counts _ joined, (faults _).2 (.inl ⟨⟨["lines", "item", "amount"], ?_, by decide⟩,
    by rw [trimmed]⟩)⟩
  exact .member rfl (.inl rfl) (.member rfl (.inl rfl) (.member rfl (.inl rfl) (.name rfl)))

end Formulary
