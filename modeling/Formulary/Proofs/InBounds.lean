import Formulary.Proofs.InOrder
import Formulary.Proofs.Reading

set_option autoImplicit false

namespace Formulary

theorem Traced.bind_congr {α β : Type} {first other : Traced α} {next following : α → Traced β}
    (same : first = other)
    (behind : ∀ value, other.result = .ok value → next value = following value) :
    first >>= next = other >>= following := by
  subst same
  obtain ⟨log, result⟩ := first
  cases result with
  | error fault => rfl
  | ok value =>
    have equal := behind value rfl
    simp only [bind, equal]

theorem Traced.ok_bind {α β : Type} (value : α) (next : α → Traced β) :
    (liftM (Except.ok value : Except Fault α) : Traced α) >>= next = next value := rfl

namespace Checked

variable {crash : Fault}

open Aggregation (Clause Key Source)

/-- Two ways to read an expression do the same on tokens that stand in their order. -/
def SlicesAgree (source : List Char) (checked read : SliceReader) : Prop :=
  ∀ (scope : Scope) {tokens : List Token}, InOrder source tokens →
    checked scope tokens = read scope tokens

section Slices

variable {source : List Char} {checked read : SliceReader}
  (agree : SlicesAgree source checked read) (scope : Scope)

include agree

theorem readCollection_eq {tokens : List Token} (ordered : InOrder source tokens) :
    readCollection crash checked source scope tokens =
      Aggregation.readCollection read source scope tokens := by
  cases tokens with
  | nil => rfl
  | cons first rest =>
    rw [readCollection, Aggregation.readCollection]
    · cases referenceNames? (first :: rest) with
      | none => exact agree scope ordered
      | some names =>
        dsimp only
        rw [ordered.sourceText_eq]
        rfl
    · simp
    · simp

theorem readOptional_eq {part : Option (List Token)}
    (ordered : ∀ body ∈ part, InOrder source body) :
    Aggregation.readOptional checked scope part = Aggregation.readOptional read scope part := by
  cases part with
  | none => rfl
  | some body =>
    rw [Aggregation.readOptional, Aggregation.readOptional, agree scope (ordered body rfl)]

theorem readSource_eq {clause : Clause} (ordered : ClauseInOrder source clause) :
    readSource crash checked source scope clause =
      Aggregation.readSource read source scope clause := by
  obtain ⟨collection, predicate, -⟩ := ordered
  apply Traced.bind_congr (readCollection_eq agree scope collection)
  intro _ _
  exact Traced.bind_congr (readOptional_eq agree _ predicate) fun _ _ => rfl

theorem readReduction_eq (name : String) {arguments : List Token}
    (ordered : InOrder source arguments) :
    readReduction crash checked source name arguments scope =
      Aggregation.readReduction read source name arguments scope := by
  apply Traced.bind_congr (by rw [splitClause_eq])
  intro clause found
  have inside := ordered.clause found
  apply Traced.bind_congr (readSource_eq agree scope inside)
  intro source _
  exact Traced.bind_congr (readOptional_eq agree source.elements inside.2.2) fun _ _ => rfl

/-- What is left to read of a keyed aggregation once its parts are known. -/
theorem keyed_eq (name : String) {parts : List (List Token)}
    (ordered : ∀ part ∈ parts, InOrder source part) (build : Source → Key → Expr → Expr) :
    (do
      let (clause, key) ← splitKeyed crash name parts
      let found ← readSource crash checked source scope clause
      let body ← checked (scope.lambda key.parameter) key.body
      return build found key body : Traced Expr) =
    (do
      let (clause, key) ← Aggregation.splitKeyed name parts
      let found ← Aggregation.readSource read source scope clause
      let body ← read (scope.lambda key.parameter) key.body
      return build found key body) := by
  apply Traced.bind_congr (by rw [splitKeyed_eq])
  rintro ⟨clause, key⟩ found
  obtain ⟨inside, body⟩ := keyed_inOrder ordered found
  apply Traced.bind_congr (readSource_eq agree scope inside)
  intro source _
  exact Traced.bind_congr (agree _ body) fun _ _ => rfl

theorem readExtreme_eq (which : Extreme) (name : String) {arguments : List Token}
    (ordered : InOrder source arguments) :
    readExtreme crash checked source which name arguments scope =
      Aggregation.readExtreme read source which name arguments scope := by
  apply Traced.bind_congr (by rw [splitArguments_eq])
  intro parts found
  exact keyed_eq agree scope name (ordered.split found) fun source key body =>
    .extreme which source.var source.collection source.predicate key.parameter body

theorem readTop_eq (name : String) {arguments : List Token} (ordered : InOrder source arguments) :
    readTop crash checked source name arguments scope =
      Aggregation.readTop read source name arguments scope := by
  apply Traced.bind_congr (by rw [splitArguments_eq])
  intro parts found
  have inside := ordered.split found
  rcases parts with _ | ⟨count, _ | ⟨first, rest⟩⟩
  · rfl
  · rfl
  · obtain ⟨number, others⟩ := List.forall_mem_cons.1 inside
    apply Traced.bind_congr (agree scope number)
    intro count _
    exact keyed_eq agree scope name others fun source key body =>
      .top count source.var source.collection source.predicate key.parameter body

theorem readAggregation_eq (name : String) {arguments : List Token}
    (ordered : InOrder source arguments) :
    readAggregation crash checked source name arguments scope =
      Aggregation.read read source name arguments scope := by
  unfold readAggregation
  rw [ordered.sourceText_eq, Traced.ok_bind]
  simp only [readExtreme_eq agree scope _ name ordered, readTop_eq agree scope name ordered,
    readReduction_eq agree scope name ordered]
  rfl

omit agree in
theorem memberName_eq (signature : Signature) {argument : List Token}
    (ordered : InOrder source argument) :
    memberName crash source signature argument =
      Call.memberName source signature argument := by
  unfold memberName Call.memberName
  rw [ordered.sourceText_eq]
  rfl

theorem readPositional_eq (signature : Signature) {argument : List Token}
    (ordered : InOrder source argument) :
    Call.readPositional checked scope signature argument =
      Call.readPositional read scope signature argument := by
  rw [Call.readPositional, Call.readPositional, agree scope ordered]

theorem readAll_eq (signature : Signature) {arguments : List (List Token)}
    (ordered : ∀ argument ∈ arguments, InOrder source argument) :
    Call.readAll checked scope signature arguments =
      Call.readAll read scope signature arguments := by
  induction arguments with
  | nil => rfl
  | cons argument rest ih =>
    obtain ⟨first, others⟩ := List.forall_mem_cons.1 ordered
    rw [Call.readAll, Call.readAll, readPositional_eq agree scope signature first, ih others]

omit agree in
theorem InOrder.value {tokens value : List Token} {key : Call.ArgumentKey}
    (ordered : InOrder source tokens) (found : Call.keyword? tokens = some (key, value)) :
    InOrder source value := by
  obtain ⟨word, sign, spelled, rfl, -⟩ := Call.keyword?_eq_some found
  exact ordered.sublist ((List.sublist_cons_self _ _).trans (List.sublist_cons_self _ _))

theorem readValue_eq (signature : Signature) (key : Call.ArgumentKey) {value : List Token}
    (ordered : InOrder source value) :
    Call.readValue checked scope signature key value =
      Call.readValue read scope signature key value := by
  rw [Call.readValue, Call.readValue, agree scope ordered]

theorem readOverMember_eq (signature : Signature) {collection member : List Token}
    (first : InOrder source collection) (second : InOrder source member) :
    readOverMember crash checked source scope signature [collection, member] =
      Call.readOverMember read source scope signature collection member := by
  have one : index crash [collection, member] 0 = .ok collection := rfl
  have two : index crash [collection, member] 1 = .ok member := rfl
  simp only [readOverMember, Call.readOverMember, one, two, Traced.ok_bind,
    readPositional_eq agree scope signature first, memberName_eq signature second]

theorem readAlongAxis_eq (signature : Signature) {target axis : List Token}
    (first : InOrder source target) (second : InOrder source axis) :
    readAlongAxis crash checked source scope signature [target, axis] =
      Call.readAlongAxis read source scope signature target axis := by
  apply Traced.bind_congr (readPositional_eq agree scope signature first)
  intro array _
  dsimp only [List.getElem?_cons_succ, List.getElem?_cons_zero]
  cases found : Call.keyword? axis with
  | none =>
    rw [second.sourceText_eq]
    rfl
  | some parts =>
    obtain ⟨key, value⟩ := parts
    cases key with
    | axis =>
      dsimp only
      rw [readValue_eq agree scope signature .axis (second.value found)]
    | index => rfl

theorem readKeywords_eq (signature : Signature) (keywords : Call.Keywords)
    {arguments : List (List Token)} (ordered : ∀ argument ∈ arguments, InOrder source argument) :
    readKeywords crash checked source scope signature keywords arguments =
      Call.readKeywords read source scope signature keywords arguments := by
  induction arguments generalizing keywords with
  | nil => rfl
  | cons argument rest ih =>
    obtain ⟨first, others⟩ := List.forall_mem_cons.1 ordered
    rw [readKeywords, Call.readKeywords]
    cases found : Call.keyword? argument with
    | none =>
      dsimp only
      rw [first.sourceText_eq]
      rfl
    | some parts =>
      obtain ⟨key, value⟩ := parts
      dsimp only
      rw [readValue_eq agree scope signature key (first.value found)]
      simp only [ih _ others]

omit agree in
/-- A negative axis is at least one step from the end. -/
theorem sliceCode_eq (signature : Signature) (target axis index : String) :
    sliceCode crash signature target axis index =
      .ok (Formulary.sliceCode signature target axis index) := by
  unfold sliceCode Formulary.sliceCode
  cases literalAxis? axis with
  | none => rfl
  | some n =>
    dsimp only
    unfold indexAlong Formulary.indexAlong
    split
    · rfl
    · have steps : subtract crash n.natAbs 1 = .ok (n.natAbs - 1) := if_pos (by omega)
      rw [steps]
      rfl

theorem readSlice_eq (signature : Signature) {target : List Token} {rest : List (List Token)}
    (first : InOrder source target) (others : ∀ argument ∈ rest, InOrder source argument) :
    readSlice crash checked source scope signature (target :: rest) =
      Call.readSlice read source scope signature target rest := by
  apply Traced.bind_congr (readPositional_eq agree scope signature first)
  intro array _
  have behind := @range_append crash _ [target] rest [] 1 (target :: rest).length rfl
    (Nat.add_comm _ _)
  rw [List.append_nil, List.singleton_append] at behind
  rw [behind, Traced.ok_bind]
  apply Traced.bind_congr (readKeywords_eq agree scope signature _ others)
  rintro ⟨axis, index⟩ _
  cases axis with
  | none => rfl
  | some axis =>
    cases index with
    | none => rfl
    | some index =>
      apply Traced.bind_congr rfl
      intro _ _
      rw [sliceCode_eq, Traced.ok_bind]

omit agree in
/-- The shapes that reach for arguments by index belong to functions with that many. -/
theorem arity_of_shape : ∀ signature ∈ Signature.table,
    (signature.shape = .collectionField → signature.arity = .exactly 2) ∧
      (signature.shape = .axisKeyword → signature.arity = .range 1 2) ∧
        (signature.shape = .sliceKeywords → signature.arity = .exactly 3) := by
  decide

theorem readShape_eq {signature : Signature} (listed : signature ∈ Signature.table)
    {arguments : List (List Token)} (accepted : signature.arity.accepts arguments.length = true)
    (ordered : ∀ argument ∈ arguments, InOrder source argument) :
    readShape crash checked source scope signature arguments =
      Call.readShape read source scope signature arguments := by
  obtain ⟨pairs, oneOrTwo, triples⟩ := arity_of_shape signature listed
  cases shape : signature.shape with
  | positional =>
    simp only [readShape, Call.readShape, shape, readAll_eq agree scope signature ordered]
  | buildingBlock =>
    simp only [readShape, Call.readShape, shape, readAll_eq agree scope signature ordered]
  | collectionField =>
    simp only [pairs shape, Arity.exactly, Arity.accepts, Bool.and_eq_true,
      decide_eq_true_eq] at accepted
    rcases arguments with _ | ⟨collection, _ | ⟨member, _ | ⟨extra, rest⟩⟩⟩
    · simp at accepted
    · simp at accepted
    · simp only [readShape, Call.readShape, shape]
      exact readOverMember_eq agree scope signature (ordered _ (by simp)) (ordered _ (by simp))
    · simp at accepted
  | axisKeyword =>
    simp only [oneOrTwo shape, Arity.accepts, Bool.and_eq_true, decide_eq_true_eq] at accepted
    rcases arguments with _ | ⟨target, _ | ⟨axis, _ | ⟨extra, rest⟩⟩⟩
    · simp at accepted
    · simp only [readShape, Call.readShape, shape]
      exact Traced.bind_congr (readPositional_eq agree scope signature (ordered _ (by simp)))
        fun _ _ => rfl
    · simp only [readShape, Call.readShape, shape]
      exact readAlongAxis_eq agree scope signature (ordered _ (by simp)) (ordered _ (by simp))
    · simp at accepted
  | sliceKeywords =>
    simp only [triples shape, Arity.exactly, Arity.accepts, Bool.and_eq_true,
      decide_eq_true_eq] at accepted
    cases arguments with
    | nil => simp at accepted
    | cons target rest =>
      obtain ⟨first, others⟩ := List.forall_mem_cons.1 ordered
      simp only [readShape, Call.readShape, shape]
      exact readSlice_eq agree scope signature first others

theorem readCall_eq (name : String) {tokens : List Token} (ordered : InOrder source tokens) :
    readCall crash checked source scope name tokens =
      Call.read read source scope name tokens := by
  simp only [readCall, Call.read]
  split
  · exact readAggregation_eq agree scope name.toUpper ordered
  · cases known : Signature.lookup? name.toUpper with
    | none => rfl
    | some signature =>
      have listed := List.mem_of_find?_eq_some known
      apply Traced.bind_congr (by rw [splitArguments_eq])
      intro parts found
      split
      · rename_i accepted
        exact readShape_eq agree scope listed accepted (ordered.split found)
      · rfl

end Slices

/-- As `SlicesAgree`, for readers that leave tokens unread. -/
def ReadersAgree (source : List Char) (checked reader : Reader) : Prop :=
  ∀ (scope : Scope) (stop : Nat) {tokens : List Token}, InOrder source tokens →
    checked ⟨source, scope, stop⟩ tokens = reader ⟨source, scope, stop⟩ tokens

open Grammar

variable {source : List Char}

/-- What a reader leaves is a part of what it got. -/
theorem InOrder.rest {reader : Reader} (sound : SoundReader reader) {context : Context}
    {tokens : List Token} (ordered : InOrder source tokens) {step : Step tokens.length}
    (success : (reader context tokens).result = .ok step) : InOrder source step.rest := by
  obtain ⟨used, whole, -⟩ := sound ⟨step.shorter, success⟩
  have behind : step.rest <:+ tokens := ⟨used, whole.symm⟩
  exact ordered.sublist behind.sublist

theorem InOrder.tail {token : Token} {tokens : List Token}
    (ordered : InOrder source (token :: tokens)) : InOrder source tokens :=
  ordered.sublist (List.sublist_cons_self token tokens)

theorem slicesAgree_readWhole {inner deeper : Inner}
    (agree : ReadersAgree source (inner .expression) (deeper .expression)) :
    SlicesAgree source (readWhole inner source) (readWhole deeper source) := by
  intro scope tokens ordered
  cases tokens with
  | nil => rfl
  | cons first rest => rw [readWhole, readWhole, agree scope _ ordered]

section Chains

variable {operator? : Kind → Option BinaryOp} {checked operand : Reader}
  (agree : ReadersAgree source checked operand) (sound : SoundReader operand) (scope : Scope)
  (stop : Nat)

include agree sound

theorem chain_eq (left : Expr) {tokens : List Token} (ordered : InOrder source tokens) :
    chain operator? checked ⟨source, scope, stop⟩ left tokens =
      chain operator? operand ⟨source, scope, stop⟩ left tokens := by
  obtain ⟨size, bound⟩ : ∃ size, tokens.length < size := ⟨_, Nat.lt_succ_self _⟩
  induction size generalizing left tokens with
  | zero => exact absurd bound (Nat.not_lt_zero _)
  | succ size ih =>
    cases tokens with
    | nil => rw [chain, chain]
    | cons token rest =>
      rw [chain, chain]
      cases operator? token.kind with
      | none => rfl
      | some op =>
        apply Traced.bind_congr (agree scope stop ordered.tail)
        intro right success
        have fewer : right.rest.length < size := by
          have shorter := right.shorter
          rw [List.length_cons] at bound
          omega
        rw [ih _ (ordered.tail.rest sound success) fewer]

theorem readersAgree_leftAssociative :
    ReadersAgree source (leftAssociative operator? checked)
      (leftAssociative operator? operand) := by
  intro scope stop tokens ordered
  apply Traced.bind_congr (agree scope stop ordered)
  intro first success
  rw [chain_eq agree sound scope stop first.expr (ordered.rest sound success)]

theorem items_eq {tokens : List Token} (ordered : InOrder source tokens) :
    items checked ⟨source, scope, stop⟩ tokens = items operand ⟨source, scope, stop⟩ tokens := by
  obtain ⟨size, bound⟩ : ∃ size, tokens.length < size := ⟨_, Nat.lt_succ_self _⟩
  induction size generalizing tokens with
  | zero => exact absurd bound (Nat.not_lt_zero _)
  | succ size ih =>
    rw [items, items]
    apply Traced.bind_congr (agree scope stop ordered)
    intro first success
    have left := ordered.rest sound success
    obtain ⟨expr, rest, shorter⟩ := first
    cases rest with
    | nil => rfl
    | cons token rest =>
      dsimp only
      rw [ih left.tail (by simp only [List.length_cons] at shorter; omega)]

end Chains

theorem members_stop {stop : Nat} {tokens : List Token} {tail : Members (tokens.length + 1)}
    (found : members stop tokens = .ok tail) :
    tail.stop = stop ∨ ∃ last ∈ tokens, tail.stop = last.stop := by
  fun_induction members stop tokens with
  | case1 => cases found; exact .inl rfl
  | case2 => cases found
  | case3 => cases found; exact .inl rfl
  | case4 => cases found
  | case5 stop mark token rest isMark name named ih =>
    obtain ⟨more, later, done⟩ := bind_eq_ok.1 found
    cases done
    rcases ih later with here | ⟨last, member, there⟩
    · exact .inr ⟨token, by simp, here⟩
    · exact .inr ⟨last, by simp [member], there⟩
  | case6 => cases found; exact .inl rfl

theorem nameValue_eq (scope : Scope) (stop : Nat) {head : Token} (name : String)
    {rest : List Token} (ordered : InOrder source (head :: rest)) :
    nameValue crash ⟨source, scope, stop⟩ head name rest =
      Grammar.nameValue ⟨source, scope, stop⟩ head name rest := by
  unfold nameValue Grammar.nameValue
  cases literal? name with
  | some expr => rfl
  | none =>
    apply Traced.bind_congr rfl
    intro tail found
    rw [ordered.slice_eq (members_stop found)]
    rfl

theorem InOrder.enclosed {opening : Token} {tokens inside rest : List Token}
    (ordered : InOrder source tokens)
    (found : Formulary.enclosed opening tokens = .ok (inside, rest)) :
    InOrder source inside ∧ InOrder source rest := by
  unfold Formulary.enclosed at found
  split at found
  · rename_i parts closed
    obtain rfl := Except.ok.inj found
    obtain ⟨closing, rfl, -⟩ := upToClose_append closed
    refine ⟨ordered.sublist (List.sublist_append_left _ _), ?_⟩
    exact (ordered.sublist (List.sublist_append_right _ _)).tail
  · contradiction

section Levels

variable {checked inner : Inner}
  (agree : ∀ entry, ReadersAgree source (checked entry) (inner entry))
  (sound : ∀ entry, SoundReader (inner entry)) (scope : Scope) (stop : Nat)

include agree

theorem named_eq {head : Token} (name : String) {rest : List Token}
    (ordered : InOrder source (head :: rest)) :
    named crash checked ⟨source, scope, stop⟩ head name rest =
      Grammar.named inner ⟨source, scope, stop⟩ head name rest := by
  have slices := slicesAgree_readWhole (agree .expression)
  cases rest with
  | nil => exact nameValue_eq scope stop name ordered
  | cons opening after =>
    unfold named Grammar.named
    dsimp only
    by_cases opens : opening.kind = .openParen
    · have same := @enclosed_eq crash opening opens after
      rw [if_pos opens, if_pos opens]
      split
      · rename_i fault failed
        split
        · rename_i other again
          rw [same, again] at failed
          rw [Except.error.inj failed]
        · simp_all
      · rename_i arguments tail inside
        split
        · simp_all
        · rename_i within behind again
          rw [same, again] at inside
          obtain ⟨rfl, rfl⟩ := Prod.mk.inj (Except.ok.inj inside)
          rw [readCall_eq slices scope name (ordered.tail.tail.enclosed again).1]
    · rw [if_neg opens, if_neg opens]
      exact nameValue_eq scope stop name ordered

include sound

theorem itemsUpTo_eq (closing : Kind) {tokens : List Token} (ordered : InOrder source tokens) :
    itemsUpTo closing (checked .expression) ⟨source, scope, stop⟩ tokens =
      itemsUpTo closing (inner .expression) ⟨source, scope, stop⟩ tokens := by
  rw [itemsUpTo, itemsUpTo, items_eq (agree .expression) (sound .expression) scope stop ordered]

theorem group_eq {tokens : List Token} (ordered : InOrder source tokens) :
    group checked ⟨source, scope, stop⟩ tokens = group inner ⟨source, scope, stop⟩ tokens := by
  rw [group, group, itemsUpTo_eq agree sound scope stop .closeParen ordered]

theorem listLiteral_eq {tokens : List Token} (ordered : InOrder source tokens) :
    listLiteral checked ⟨source, scope, stop⟩ tokens =
      listLiteral inner ⟨source, scope, stop⟩ tokens := by
  cases tokens with
  | nil => rw [listLiteral, listLiteral, itemsUpTo_eq agree sound scope stop .closeBracket ordered]
  | cons token rest =>
    rw [listLiteral, listLiteral, itemsUpTo_eq agree sound scope stop .closeBracket ordered]

theorem branches_eq (condition : Expr) {tokens : List Token} (ordered : InOrder source tokens) :
    branches checked ⟨source, scope, stop⟩ condition tokens =
      branches inner ⟨source, scope, stop⟩ condition tokens := by
  apply Traced.bind_congr (agree .expression scope stop ordered)
  intro yes success
  have left := ordered.rest (sound .expression) success
  obtain ⟨expr, rest, shorter⟩ := yes
  cases rest with
  | nil => rfl
  | cons token rest =>
    dsimp only
    rw [agree .expression scope stop left.tail]

theorem conditional_eq (keyword : Token) {tokens : List Token} (ordered : InOrder source tokens) :
    conditional crash checked ⟨source, scope, stop⟩ keyword tokens =
      Grammar.conditional inner ⟨source, scope, stop⟩ keyword tokens := by
  have slices := slicesAgree_readWhole (agree .expression)
  cases tokens with
  | nil => rfl
  | cons opening after =>
    by_cases opens : opening.kind = .openParen
    · have same := @enclosed_eq crash opening opens after
      -- Each side is opened on its own: what stands behind the brackets is matched on both.
      generalize careful : conditional crash checked _ _ _ = first
      generalize plain : Grammar.conditional inner _ _ _ = second
      unfold conditional at careful
      unfold Grammar.conditional at plain
      dsimp only at careful plain
      rw [if_pos opens] at careful plain
      split at careful
      · rename_i fault failed
        rw [same] at failed
        split at plain
        · simp_all
        · simp_all
      · rename_i condition tail inside
        rw [same] at inside
        obtain ⟨within, behind⟩ := ordered.tail.enclosed inside
        have called := @readCall_eq crash source _ _ slices scope "IF" _ within
        split at plain
        · simp_all
        · rename_i other rest again
          obtain ⟨rfl, rfl⟩ := Prod.mk.inj (Except.ok.inj (inside.symm.trans again))
          cases tail with
          | nil =>
            rw [← careful, ← plain]
            dsimp only
            rw [called]
          | cons token rest =>
            rw [← careful, ← plain]
            dsimp only
            simp only [called, slices scope within,
              branches_eq agree sound scope stop _ behind.tail]
            rfl
    · rw [conditional, Grammar.conditional, if_neg opens, if_neg opens]

theorem readersAgree_primary :
    ReadersAgree source (primary crash checked) (Grammar.primary inner) := by
  intro scope stop tokens ordered
  cases tokens with
  | nil => rfl
  | cons token rest =>
    unfold primary
    simp only [group_eq agree sound scope stop ordered.tail,
      listLiteral_eq agree sound scope stop ordered.tail,
      conditional_eq agree sound scope stop token ordered.tail,
      named_eq agree scope stop _ ordered]
    rfl

theorem readersAgree_power : ReadersAgree source (power crash checked) (Grammar.power inner) := by
  intro scope stop tokens ordered
  apply Traced.bind_congr (readersAgree_primary agree sound scope stop ordered)
  intro base success
  have left := ordered.rest (soundReader_primary sound) success
  obtain ⟨expr, rest, shorter⟩ := base
  cases rest with
  | nil => rfl
  | cons token rest =>
    dsimp only
    rw [agree .signed scope stop left.tail]

theorem readersAgree_signed :
    ReadersAgree source (signed crash checked) (Grammar.signed inner) := by
  intro scope stop tokens ordered
  cases tokens with
  | nil => exact readersAgree_power agree sound scope stop ordered
  | cons token rest =>
    rw [signed, Grammar.signed, agree .signed scope stop ordered.tail,
      readersAgree_power agree sound scope stop ordered]

theorem readersAgree_product :
    ReadersAgree source (product crash checked) (Grammar.product inner) :=
  readersAgree_leftAssociative (readersAgree_signed agree sound) (soundReader_signed sound)

theorem readersAgree_sum : ReadersAgree source (sum crash checked) (Grammar.sum inner) :=
  readersAgree_leftAssociative (readersAgree_product agree sound) (soundReader_product sound)

theorem readersAgree_comparison :
    ReadersAgree source (comparison crash checked) (Grammar.comparison inner) := by
  intro scope stop tokens ordered
  apply Traced.bind_congr (readersAgree_sum agree sound scope stop ordered)
  intro left success
  have behind := ordered.rest (soundReader_sum sound) success
  obtain ⟨expr, rest, shorter⟩ := left
  cases rest with
  | nil => rfl
  | cons token rest =>
    dsimp only
    cases Grammar.comparisonOperator? token.kind with
    | none => rfl
    | some op =>
      exact Traced.bind_congr (readersAgree_sum agree sound scope stop behind.tail) fun _ _ => rfl

theorem readersAgree_negation :
    ReadersAgree source (negation crash checked) (Grammar.negation inner) := by
  intro scope stop tokens ordered
  cases tokens with
  | nil => exact readersAgree_comparison agree sound scope stop ordered
  | cons token rest =>
    rw [negation, Grammar.negation, agree .negation scope stop ordered.tail,
      readersAgree_comparison agree sound scope stop ordered]

theorem readersAgree_conjunction :
    ReadersAgree source (conjunction crash checked) (Grammar.conjunction inner) :=
  readersAgree_leftAssociative (readersAgree_negation agree sound) (soundReader_negation sound)

theorem readersAgree_disjunction :
    ReadersAgree source (disjunction crash checked) (Grammar.disjunction inner) :=
  readersAgree_leftAssociative (readersAgree_conjunction agree sound)
    (soundReader_conjunction sound)

end Levels

theorem readersAgree_readerAt (levels : Nat) (entry : Entry) :
    ReadersAgree source (readerAt crash levels entry) (Grammar.readerAt levels entry) := by
  induction levels generalizing entry with
  | zero => exact fun _ _ _ _ => rfl
  | succ levels ih =>
    have sound := soundReader_readerAt levels
    cases entry with
    | expression => exact readersAgree_disjunction ih sound
    | negation => exact readersAgree_negation ih sound
    | signed => exact readersAgree_signed ih sound

theorem parse_eq (formula : String) : parse crash formula = Formula.parse formula := by
  apply Traced.bind_congr (by rw [tokenize_eq])
  intro tokens lexed
  have slices := slicesAgree_readWhole
    (@readersAgree_readerAt crash formula.toList maxNesting .expression)
  cases tokens with
  | nil => rfl
  | cons first rest => exact slices .entity (inOrder_tokenize lexed)

end Checked

open Checked in
/-- Whatever fault an access out of bounds would end with, it never comes up: with every index,
range, slice and subtraction checked, each function of a text gives the answer it gives without
the checks. -/
theorem accesses_in_bounds (crash : Fault) (source : String) :
    Checked.compile crash source = Formula.compile source ∧
      Checked.argumentTexts crash source = argumentTexts source ∧
      Checked.joinCollection crash source = joinCollection source ∧
      Checked.hasConditional crash source = .ok (hasConditional source) ∧
      Checked.tokenizeLenient crash source = .ok (tokenizeLenient source) := by
  refine ⟨?_, argumentTexts_eq source, joinCollection_eq source, hasConditional_eq source,
    tokenizeLenient_eq source⟩
  rw [Checked.compile, Formula.compile, parse_eq]

end Formulary
