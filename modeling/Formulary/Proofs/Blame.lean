import Formulary.Formula.Basic
import Formulary.Proofs.Reading

set_option autoImplicit false

namespace Formulary

/-- What holds of the value, or else of the fault. -/
def Ends {α : Type} (good : α → Prop) (bad : Fault → Prop) : Except Fault α → Prop
  | .ok value => good value
  | .error fault => bad fault

section Ends

variable {α β : Type} {good : α → Prop} {kept : β → Prop} {bad : Fault → Prop}

theorem ends_of {result : Except Fault α} (ok : ∀ value, result = .ok value → good value)
    (error : ∀ fault, result = .error fault → bad fault) : Ends good bad result := by
  cases result with
  | ok value => exact ok value rfl
  | error fault => exact error fault rfl

theorem Ends.error {result : Except Fault α} {fault : Fault} (ends : Ends good bad result)
    (failed : result = .error fault) : bad fault := by
  rw [failed] at ends
  exact ends

theorem Ends.bind {first : Except Fault α} {next : α → Except Fault β}
    (before : Ends good bad first) (behind : ∀ value, good value → Ends kept bad (next value)) :
    Ends kept bad (first >>= next) := by
  cases first with
  | ok value => exact behind value before
  | error fault => exact before

theorem Ends.map {first : Except Fault α} {change : α → β} (before : Ends good bad first)
    (changed : ∀ value, good value → kept (change value)) : Ends kept bad (first.map change) := by
  cases first with
  | ok value => exact changed value before
  | error fault => exact before

namespace Traced

theorem ends_bind {first : Traced α} {next : α → Traced β} (before : Ends good bad first.result)
    (behind : ∀ value, good value → Ends kept bad (next value).result) :
    Ends kept bad (first >>= next).result := by
  rw [result_bind]
  exact before.bind behind

end Traced

end Ends

section Arises

variable (source : List Char) (tokens : List Token)

/-- A text that a fault may hold: a stretch of the formula, the name of a call in capitals, or the
name of a function of the table. -/
inductive Quotable : String → Prop where
  | slice (start stop : Nat) : Quotable (Text.slice source start stop)
  | called {token : Token} {name : String} (inside : token ∈ tokens)
      (kind : calledName? token.kind = some name) : Quotable name.toUpper
  | listed {signature : Signature} (inTable : signature ∈ Signature.table) : Quotable signature.name

/-- Where a fault may be: at the start of the formula, or at either end of a token. -/
inductive Placed : Nat → Prop where
  | zero : Placed 0
  | start {token : Token} (inside : token ∈ tokens) : Placed token.start
  | stop {token : Token} (inside : token ∈ tokens) : Placed token.stop

namespace SyntaxCause

/-- The kinds that are found are those of tokens, and the wanted ones are closing brackets. -/
def Arises : SyntaxCause → Prop
  | unterminatedString _ => False
  | strayCharacter _ => False
  | unexpectedToken kind => ∃ token ∈ tokens, token.kind = kind
  | missing wanted found =>
    wanted.isClosing = true ∧ ∀ kind ∈ found, ∃ token ∈ tokens, token.kind = kind
  | _ => True

end SyntaxCause

namespace ClauseCause

def Arises : ClauseCause → Prop
  | comma offset => Placed tokens offset
  | memberNotName found => Quotable source tokens found
  | _ => True

end ClauseCause

namespace KeywordCause

def Arises : KeywordCause → Prop
  | inPositional key => ∃ known : Call.ArgumentKey, known.name = key
  | unknownKey key => ∃ known : Call.ArgumentKey, known.name = key
  | axisExpected found => Quotable source tokens found
  | axisOrIndexExpected found => Quotable source tokens found
  | duplicate key => ∃ known : Call.ArgumentKey, known.name = key
  | missingValue key => ∃ known : Call.ArgumentKey, known.name = key
  | _ => True

end KeywordCause

namespace Fault

/-- A fault that is about these tokens of the formula. -/
def Arises : Fault → Prop
  | unknownFunction name => Quotable source tokens name
  | arityMismatch name _ _ _ => Quotable source tokens name
  | keywordArgument function cause => Quotable source tokens function ∧ cause.Arises source tokens
  | aggregationClause function cause => Quotable source tokens function ∧ cause.Arises source tokens
  | multiDotReference text => Quotable source tokens text
  | joinCondition _ => False
  | malformed position cause => Placed tokens position ∧ cause.Arises tokens

end Fault

end Arises

section Pool

-- The tokens at hand are always some of those of the whole formula, which are `pool`.

variable {source : List Char} {pool : List Token}

theorem quotable_sourceText (tokens : List Token) :
    Quotable source pool (sourceText source tokens) := by
  cases tokens with
  | nil =>
    have empty : Text.slice source 0 0 = "" := by simp [Text.slice, Text.takeBytes]
    rw [sourceText, ← empty]
    exact .slice 0 0
  | cons first rest => exact .slice _ _

theorem placed_endOffset {tokens : List Token} (inside : tokens ⊆ pool) :
    Placed pool (endOffset tokens) := by
  rw [endOffset]
  cases last : tokens.getLast? with
  | none => exact .zero
  | some token => exact .stop (inside (List.mem_of_getLast? last))

theorem enclosed_ends {opening : Token} {rest : List Token} (here : opening ∈ pool)
    (inside : rest ⊆ pool) :
    Ends (fun parts => parts.1 ⊆ pool ∧ parts.2 ⊆ pool) (Fault.Arises source pool)
      (enclosed opening rest) := by
  unfold enclosed
  split
  · rename_i parts found
    obtain ⟨closing, rfl, -⟩ := @upToClose_append 0 rest parts.1 parts.2 found
    exact ⟨fun token member => inside (by simp [member]),
      fun token member => inside (by simp [member])⟩
  · exact ⟨.start here, trivial⟩

theorem splitFrom_ends {depth last : Nat} {started : Bool} {tokens : List Token}
    (inside : tokens ⊆ pool) (placed : Placed pool last) :
    Ends (fun _ => True) (Fault.Arises source pool) (splitFrom depth started last tokens) := by
  fun_induction splitFrom depth started last tokens with
  | case1 => exact ⟨placed, trivial⟩
  | case2 => trivial
  | case3 => exact ⟨placed, trivial⟩
  | case4 depth started last token rest opens ih =>
    obtain ⟨here, later⟩ := List.cons_subset.1 inside
    exact (ih later (.stop here)).map fun _ _ => trivial
  | case5 started last token rest => exact ⟨.start (inside (by simp)), trivial⟩
  | case6 started last token rest opens closes depth ih =>
    obtain ⟨here, later⟩ := List.cons_subset.1 inside
    exact (ih later (.stop here)).map fun _ _ => trivial
  | case7 depth last token rest opens closes comma ih =>
    obtain ⟨here, later⟩ := List.cons_subset.1 inside
    exact (ih later (.stop here)).map fun _ _ => trivial
  | case8 depth last token rest => exact ⟨.start (inside (by simp)), trivial⟩
  | case9 depth started last token rest opens closes comma ih =>
    obtain ⟨here, later⟩ := List.cons_subset.1 inside
    exact (ih later (.stop here)).map fun _ _ => trivial

theorem Joined.subset {parts : List (List Token)} {tokens : List Token}
    (joined : Joined parts tokens) : ∀ part ∈ parts, part ⊆ tokens := by
  induction joined with
  | none => simp
  | one => simp
  | more kind others ih =>
    rename_i part next parts comma rest
    refine List.forall_mem_cons.2 ⟨List.subset_append_left _ _, ?_⟩
    intro later member token here
    simp [ih later member here]

theorem splitArguments_ends {tokens : List Token} (inside : tokens ⊆ pool) :
    Ends (fun parts => ∀ part ∈ parts, part ⊆ pool) (Fault.Arises source pool)
      (splitArguments tokens) := by
  apply ends_of
  · intro parts success part member
    exact List.Subset.trans ((splitArguments_joined success).subset part member) inside
  · intro fault failed
    cases tokens with
    | nil => cases failed
    | cons token rest =>
      have pieces := @splitFrom_ends source pool 0 0 false _ inside .zero
      have ends : Ends (fun _ => True) (Fault.Arises source pool)
          (splitArguments (token :: rest)) := pieces.map fun _ _ => trivial
      exact ends.error failed

namespace Aggregation

variable {name : String} (named : Quotable source pool name)

include named

theorem nonEmpty_ends {cause : ClauseCause} (tokens : List Token)
    (arises : cause.Arises source pool) :
    Ends (fun _ => True) (Fault.Arises source pool) (nonEmpty name cause tokens) := by
  unfold nonEmpty
  split
  · exact ⟨named, arises⟩
  · trivial

theorem cutClause_ends (tokens : List Token) (whereAt arrowAt : Option Nat) :
    Ends (fun _ => True) (Fault.Arises source pool) (cutClause name tokens whereAt arrowAt) := by
  have part (cause : ClauseCause) (tokens : List Token) (arises : cause.Arises source pool) :=
    nonEmpty_ends named tokens arises
  unfold cutClause
  split
  · trivial
  · exact (part .emptyPredicate _ trivial).bind fun _ _ => trivial
  · exact (part .emptyProjection _ trivial).bind fun _ _ => trivial
  · split
    · exact ⟨named, trivial⟩
    · exact (part .emptyPredicate _ trivial).bind fun _ _ =>
        (part .emptyProjection _ trivial).bind fun _ _ => trivial

/-- The parts of a clause are tokens of the formula. -/
def Clause.Inside (pool : List Token) (clause : Clause) : Prop :=
  clause.collection ⊆ pool ∧ (∀ part ∈ clause.predicate, part ⊆ pool) ∧
    ∀ part ∈ clause.projection, part ⊆ pool

omit named in
theorem subset_of_marked {mark : Mark} {part : Option (List Token)} {tokens : List Token}
    (marked : Marked mark part tokens) (inside : tokens ⊆ pool) : ∀ body ∈ part, body ⊆ pool := by
  rintro body rfl
  obtain ⟨token, rfl, -⟩ := marked
  exact (List.cons_subset.1 inside).2

theorem splitClause_ends {tokens : List Token} (inside : tokens ⊆ pool) :
    Ends (Clause.Inside pool) (Fault.Arises source pool) (splitClause name tokens) := by
  apply ends_of
  · intro clause success
    obtain ⟨middle, behind, rfl, isWhere, isArrow⟩ := splitClause_marked success
    rw [List.append_subset, List.append_subset] at inside
    exact ⟨inside.1.1, subset_of_marked isWhere inside.1.2, subset_of_marked isArrow inside.2⟩
  · intro fault failed
    unfold splitClause at failed
    split at failed
    · rename_i comma _ _
      cases failed
      refine ⟨named, ?_⟩
      cases found : tokens[comma]? with
      | none => exact .zero
      | some token => exact .start (inside (List.mem_of_getElem? found))
    · dsimp only at failed
      split at failed
      · cases failed
        exact ⟨named, trivial⟩
      · split at failed
        · cases failed
          exact ⟨named, trivial⟩
        · exact (cutClause_ends named tokens _ _).error failed

theorem splitKey_ends {tokens : List Token} (inside : tokens ⊆ pool) :
    Ends (fun key => key.body ⊆ pool) (Fault.Arises source pool) (splitKey name tokens) := by
  unfold splitKey
  split
  · exact ⟨named, trivial⟩
  · split
    · rename_i parameter arrow body _
      split
      · split
        · exact ⟨named, trivial⟩
        · split
          · exact ⟨named, trivial⟩
          · exact fun token member => inside (by simp [member])
      · exact ⟨named, trivial⟩
    · exact ⟨named, trivial⟩

theorem splitKeyed_ends {parts : List (List Token)} (inside : ∀ part ∈ parts, part ⊆ pool) :
    Ends (fun found => Clause.Inside pool found.1 ∧ found.2.body ⊆ pool)
      (Fault.Arises source pool) (splitKeyed name parts) := by
  have nowhere : Clause.Inside pool ⟨[], none, none⟩ := ⟨by simp, by simp, by simp⟩
  unfold splitKeyed
  split
  · rename_i key
    exact (splitKey_ends named (inside key (by simp))).bind fun found body => ⟨nowhere, body⟩
  · rename_i given key
    apply (splitClause_ends named (inside given (by simp))).bind
    intro clause within
    split
    · exact ⟨named, trivial⟩
    · exact (splitKey_ends named (inside key (by simp))).bind fun found body => ⟨within, body⟩
  · exact ⟨named, trivial⟩

end Aggregation

theorem Scope.value_ends (scope : Scope) (names : List String) {text : String}
    (quotable : Quotable source pool text) :
    Ends (fun _ => True) (Fault.Arises source pool) (scope.value names text) := by
  unfold Scope.value
  simp only
  split
  · exact quotable
  · trivial

theorem Scope.collection_ends (scope : Scope) (names : List String) {text : String}
    (quotable : Quotable source pool text) :
    Ends (fun _ => True) (Fault.Arises source pool) (scope.collection names text) := by
  unfold Scope.collection
  simp only
  split
  · trivial
  · trivial
  · trivial
  · exact quotable

/-- What this reader blames on tokens of the formula arises from them. -/
def BlamesSlices (source : List Char) (pool : List Token) (read : SliceReader) : Prop :=
  ∀ (scope : Scope) {tokens : List Token}, tokens ⊆ pool →
    Ends (fun _ => True) (Fault.Arises source pool) (read scope tokens).result

section Slices

variable {read : SliceReader} (blames : BlamesSlices source pool read) (scope : Scope)

include blames

namespace Aggregation

theorem readCollection_ends {tokens : List Token} (inside : tokens ⊆ pool) :
    Ends (fun _ => True) (Fault.Arises source pool)
      (readCollection read source scope tokens).result := by
  unfold readCollection
  split
  · trivial
  · split
    · rename_i names _
      apply Traced.ends_bind (scope.collection_ends names (quotable_sourceText tokens))
      exact fun _ _ => trivial
    · exact blames scope inside

theorem readOptional_ends {part : Option (List Token)} (inside : ∀ body ∈ part, body ⊆ pool) :
    Ends (fun _ => True) (Fault.Arises source pool) (readOptional read scope part).result := by
  cases part with
  | none => trivial
  | some body => exact Traced.ends_bind (blames scope (inside body rfl)) fun _ _ => trivial

theorem readSource_ends {clause : Clause} (within : clause.Inside pool) :
    Ends (fun _ => True) (Fault.Arises source pool)
      (readSource read source scope clause).result :=
  Traced.ends_bind (readCollection_ends blames scope within.1) fun _ _ =>
    Traced.ends_bind (readOptional_ends blames _ within.2.1) fun _ _ => trivial

variable {name : String} (named : Quotable source pool name) {arguments : List Token}
  (inside : arguments ⊆ pool)

include named inside

theorem readReduction_ends :
    Ends (fun _ => True) (Fault.Arises source pool)
      (readReduction read source name arguments scope).result := by
  apply Traced.ends_bind (splitClause_ends named inside)
  intro clause within
  apply Traced.ends_bind (readSource_ends blames scope within)
  intro found _
  apply Traced.ends_bind (readOptional_ends blames found.elements within.2.2)
  intro projection _
  split
  · trivial
  · exact named

theorem readExtreme_ends (which : Extreme) :
    Ends (fun _ => True) (Fault.Arises source pool)
      (readExtreme read source which name arguments scope).result := by
  apply Traced.ends_bind (splitArguments_ends inside)
  intro parts each
  apply Traced.ends_bind (splitKeyed_ends named each)
  rintro ⟨clause, key⟩ ⟨within, body⟩
  apply Traced.ends_bind (readSource_ends blames scope within)
  intro found _
  exact Traced.ends_bind (blames _ body) fun _ _ => trivial

theorem readTop_ends :
    Ends (fun _ => True) (Fault.Arises source pool)
      (readTop read source name arguments scope).result := by
  apply Traced.ends_bind (splitArguments_ends inside)
  intro parts each
  split
  · exact ⟨named, trivial⟩
  · exact ⟨named, trivial⟩
  · rename_i count keyed _
    obtain ⟨first, others⟩ := List.forall_mem_cons.1 each
    apply Traced.ends_bind (blames scope first)
    intro number _
    apply Traced.ends_bind (splitKeyed_ends named others)
    rintro ⟨clause, key⟩ ⟨within, body⟩
    apply Traced.ends_bind (readSource_ends blames scope within)
    intro found _
    exact Traced.ends_bind (blames _ body) fun _ _ => trivial

theorem read_ends :
    Ends (fun _ => True) (Fault.Arises source pool)
      (Aggregation.read read source name arguments scope).result := by
  have noted (record : LogRecord) :
      Ends (fun _ => True) (Fault.Arises source pool) (Traced.note record).result := trivial
  apply Traced.ends_bind (noted _)
  intro _ _
  split
  · exact readExtreme_ends blames scope named inside .least
  · exact readExtreme_ends blames scope named inside .greatest
  · exact readTop_ends blames scope named inside
  · exact readReduction_ends blames scope named inside

end Aggregation

namespace Call

variable {signature : Signature} (listed : signature ∈ Signature.table)

include listed

theorem readPositional_ends {argument : List Token} (inside : argument ⊆ pool) :
    Ends (fun _ => True) (Fault.Arises source pool)
      (readPositional read scope signature argument).result := by
  unfold readPositional
  split
  · exact ⟨.listed listed, _, rfl⟩
  · exact blames scope inside

theorem readAll_ends {parts : List (List Token)} (each : ∀ part ∈ parts, part ⊆ pool) :
    Ends (fun _ => True) (Fault.Arises source pool)
      (readAll read scope signature parts).result := by
  induction parts with
  | nil => trivial
  | cons part parts ih =>
    obtain ⟨first, others⟩ := List.forall_mem_cons.1 each
    exact Traced.ends_bind (readPositional_ends blames scope listed first) fun _ _ =>
      Traced.ends_bind (ih others) fun _ _ => trivial

theorem readValue_ends (key : ArgumentKey) {value : List Token} (inside : value ⊆ pool) :
    Ends (fun _ => True) (Fault.Arises source pool)
      (readValue read scope signature key value).result := by
  unfold readValue
  split
  · exact ⟨.listed listed, key, rfl⟩
  · exact blames scope inside

omit blames in
theorem memberName_ends (argument : List Token) :
    Ends (fun _ => True) (Fault.Arises source pool) (memberName source signature argument) := by
  unfold memberName
  split
  · trivial
  · exact ⟨.listed listed, quotable_sourceText argument⟩

omit blames listed in
theorem keyword?_subset {tokens value : List Token} {key : ArgumentKey}
    (found : keyword? tokens = some (key, value)) : value ⊆ tokens := by
  obtain ⟨word, sign, spelled, rfl, -⟩ := keyword?_eq_some found
  exact fun token member => by simp [member]

theorem readOverMember_ends {collection : List Token} (member : List Token)
    (inside : collection ⊆ pool) :
    Ends (fun _ => True) (Fault.Arises source pool)
      (readOverMember read source scope signature collection member).result :=
  Traced.ends_bind (readPositional_ends blames scope listed inside) fun _ _ =>
    Traced.ends_bind (memberName_ends listed member) fun _ _ => trivial

theorem readAlongAxis_ends {target axis : List Token} (inTarget : target ⊆ pool)
    (inAxis : axis ⊆ pool) :
    Ends (fun _ => True) (Fault.Arises source pool)
      (readAlongAxis read source scope signature target axis).result := by
  apply Traced.ends_bind (readPositional_ends blames scope listed inTarget)
  intro array _
  split
  · rename_i value found
    have inside := List.Subset.trans (keyword?_subset found) inAxis
    exact Traced.ends_bind (readValue_ends blames scope listed .axis inside) fun _ _ => trivial
  · exact ⟨.listed listed, .index, rfl⟩
  · exact ⟨.listed listed, quotable_sourceText axis⟩

theorem readKeywords_ends {arguments : List (List Token)} (each : ∀ part ∈ arguments, part ⊆ pool)
    (keywords : Keywords) :
    Ends (fun _ => True) (Fault.Arises source pool)
      (readKeywords read source scope signature keywords arguments).result := by
  induction arguments generalizing keywords with
  | nil => trivial
  | cons argument rest ih =>
    obtain ⟨first, others⟩ := List.forall_mem_cons.1 each
    unfold readKeywords
    split
    · exact ⟨.listed listed, quotable_sourceText argument⟩
    · rename_i key value found
      split
      · exact ⟨.listed listed, key, rfl⟩
      · have inside := List.Subset.trans (keyword?_subset found) first
        exact Traced.ends_bind (readValue_ends blames scope listed key inside) fun _ _ =>
          ih others _

omit blames in
theorem checkAxis_ends (axis : Expr) :
    Ends (fun _ => True) (Fault.Arises source pool) (checkAxis signature axis) := by
  unfold checkAxis
  split
  · split
    · exact ⟨.listed listed, trivial⟩
    · trivial
  · trivial

theorem readSlice_ends {target : List Token} {rest : List (List Token)} (inside : target ⊆ pool)
    (each : ∀ part ∈ rest, part ⊆ pool) :
    Ends (fun _ => True) (Fault.Arises source pool)
      (Call.readSlice read source scope signature target rest).result := by
  apply Traced.ends_bind (readPositional_ends blames scope listed inside)
  intro array _
  apply Traced.ends_bind (readKeywords_ends blames scope listed each _)
  intro keywords _
  split
  · exact Traced.ends_bind (checkAxis_ends listed _) fun _ _ => trivial
  · exact ⟨.listed listed, trivial⟩

theorem readShape_ends {arguments : List (List Token)}
    (each : ∀ part ∈ arguments, part ⊆ pool) :
    Ends (fun _ => True) (Fault.Arises source pool)
      (readShape read source scope signature arguments).result := by
  unfold readShape
  split
  · exact Traced.ends_bind (readAll_ends blames scope listed each) fun _ _ => trivial
  · exact Traced.ends_bind (readAll_ends blames scope listed each) fun _ _ => trivial
  · exact readOverMember_ends blames scope listed _ (each _ (by simp))
  · apply Traced.ends_bind (readPositional_ends blames scope listed (each _ (by simp)))
    exact fun _ _ => trivial
  · exact readAlongAxis_ends blames scope listed (each _ (by simp)) (each _ (by simp))
  · obtain ⟨first, others⟩ := List.forall_mem_cons.1 each
    exact readSlice_ends blames scope listed first others
  · exact .listed listed

omit listed in
theorem read_ends {name : String} (named : Quotable source pool name.toUpper)
    {tokens : List Token} (inside : tokens ⊆ pool) :
    Ends (fun _ => True) (Fault.Arises source pool)
      (Call.read read source scope name tokens).result := by
  simp only [Call.read]
  split
  · exact Aggregation.read_ends blames scope named inside
  · split
    · exact named
    · rename_i signature known
      have listed := List.mem_of_find?_eq_some known
      apply Traced.ends_bind (splitArguments_ends inside)
      intro parts each
      split
      · exact readShape_ends blames scope listed each
      · exact .listed listed

end Call

end Slices

/-- As `BlamesSlices`, for a reader that leaves tokens of the formula unread. -/
def BlamesReader (source : List Char) (pool : List Token) (reader : Reader) : Prop :=
  ∀ (scope : Scope) {stop : Nat} {tokens : List Token}, Placed pool stop → tokens ⊆ pool →
    Ends (fun step => step.rest ⊆ pool) (Fault.Arises source pool)
      (reader ⟨source, scope, stop⟩ tokens).result

namespace Grammar

theorem blamesSlices_readWhole {inner : Inner}
    (blames : BlamesReader source pool (inner .expression)) :
    BlamesSlices source pool (readWhole inner source) := by
  intro scope tokens inside
  unfold readWhole
  split
  · exact ⟨.zero, trivial⟩
  · apply Traced.ends_bind (blames scope (placed_endOffset inside) inside)
    intro step left
    split
    · trivial
    · rename_i extra rest behind
      have here : extra ∈ pool := left (by simp [behind])
      exact ⟨.start here, extra, here, rfl⟩

section Chains

variable {operator? : Kind → Option BinaryOp} {operand : Reader}
  (blames : BlamesReader source pool operand) (scope : Scope) {stop : Nat}
  (placed : Placed pool stop)

include blames placed

theorem chain_ends (left : Expr) {tokens : List Token} (inside : tokens ⊆ pool) :
    Ends (fun step => step.rest ⊆ pool) (Fault.Arises source pool)
      (chain operator? operand ⟨source, scope, stop⟩ left tokens).result := by
  obtain ⟨size, bound⟩ : ∃ size, tokens.length < size := ⟨_, Nat.lt_succ_self _⟩
  induction size generalizing left tokens with
  | zero => exact absurd bound (Nat.not_lt_zero _)
  | succ size ih =>
    cases tokens with
    | nil =>
      rw [chain]
      exact inside
    | cons token rest =>
      rw [chain]
      split
      · exact inside
      · apply Traced.ends_bind (blames scope placed (List.cons_subset.1 inside).2)
        intro right behind
        have fewer : right.rest.length < size := by
          have shorter := right.shorter
          rw [List.length_cons] at bound
          omega
        exact Traced.ends_bind (ih _ behind fewer) fun _ left => left

omit placed in
theorem blamesReader_leftAssociative :
    BlamesReader source pool (leftAssociative operator? operand) := by
  intro scope stop tokens placed inside
  apply Traced.ends_bind (blames scope placed inside)
  intro first left
  exact Traced.ends_bind (chain_ends blames scope placed first.expr left) fun _ rest => rest

theorem items_ends {tokens : List Token} (inside : tokens ⊆ pool) :
    Ends (fun found => found.rest ⊆ pool) (Fault.Arises source pool)
      (items operand ⟨source, scope, stop⟩ tokens).result := by
  obtain ⟨size, bound⟩ : ∃ size, tokens.length < size := ⟨_, Nat.lt_succ_self _⟩
  induction size generalizing tokens with
  | zero => exact absurd bound (Nat.not_lt_zero _)
  | succ size ih =>
    rw [items]
    apply Traced.ends_bind (blames scope placed inside)
    intro first left
    split
    · exact List.nil_subset pool
    · rename_i token rest behind
      have within : token :: rest ⊆ pool := by rwa [← behind]
      split
      · have fewer : rest.length < size := by
          have shorter := first.shorter
          rw [behind, List.length_cons] at shorter
          omega
        apply Traced.ends_bind (ih (List.cons_subset.1 within).2 fewer)
        exact fun _ after => after
      · exact within

end Chains

theorem expect_ends {wanted : Kind} (closing : wanted.isClosing = true) (scope : Scope) {stop : Nat}
    (placed : Placed pool stop) {tokens : List Token} (inside : tokens ⊆ pool) :
    Ends (fun rest => rest ⊆ pool) (Fault.Arises source pool)
      (expect ⟨source, scope, stop⟩ wanted tokens) := by
  unfold expect
  split
  · exact ⟨placed, closing, by simp⟩
  · rename_i token rest
    obtain ⟨here, later⟩ := List.cons_subset.1 inside
    split
    · exact later
    · refine ⟨.start here, closing, ?_⟩
      intro kind found
      exact ⟨token, here, Option.mem_some.1 found⟩

theorem members_ends {stop : Nat} {tokens : List Token} (inside : tokens ⊆ pool) :
    Ends (fun found => found.rest ⊆ pool) (Fault.Arises source pool) (members stop tokens) := by
  fun_induction members stop tokens with
  | case1 => exact inside
  | case2 stop mark isMark => exact ⟨.stop (inside (by simp)), trivial⟩
  | case3 => exact inside
  | case4 stop mark token rest isMark unnamed => exact ⟨.stop (inside (by simp)), trivial⟩
  | case5 stop mark token rest isMark name named ih =>
    have later : rest ⊆ pool := fun other member => inside (by simp [member])
    exact (ih later).bind fun _ left => left
  | case6 => exact inside

theorem nameValue_ends (scope : Scope) (stop : Nat) (head : Token) (name : String)
    {rest : List Token} (inside : rest ⊆ pool) :
    Ends (fun step => step.rest ⊆ pool) (Fault.Arises source pool)
      (nameValue ⟨source, scope, stop⟩ head name rest).result := by
  unfold nameValue
  split
  · exact inside
  · apply Traced.ends_bind (members_ends inside)
    intro tail left
    exact Traced.ends_bind (scope.value_ends _ (.slice _ _)) fun _ _ => left

section Levels

variable {inner : Inner} (blames : ∀ entry, BlamesReader source pool (inner entry)) (scope : Scope)
  {stop : Nat} (placed : Placed pool stop)

include blames placed

theorem itemsUpTo_ends {closing : Kind} (closes : closing.isClosing = true) {tokens : List Token}
    (inside : tokens ⊆ pool) :
    Ends (fun found => found.rest ⊆ pool) (Fault.Arises source pool)
      (itemsUpTo closing (inner .expression) ⟨source, scope, stop⟩ tokens).result := by
  apply Traced.ends_bind (items_ends (blames .expression) scope placed inside)
  intro found left
  have ends := @expect_ends source pool closing closes scope stop placed _ left
  split
  · rename_i fault failed
    exact ends.error failed
  · rename_i rest closed
    rw [closed] at ends
    exact ends

theorem group_ends {tokens : List Token} (inside : tokens ⊆ pool) :
    Ends (fun step => step.rest ⊆ pool) (Fault.Arises source pool)
      (group inner ⟨source, scope, stop⟩ tokens).result := by
  apply Traced.ends_bind (itemsUpTo_ends blames scope placed rfl inside)
  intro found left
  split
  · exact left
  · exact left

theorem listLiteral_ends {tokens : List Token} (inside : tokens ⊆ pool) :
    Ends (fun step => step.rest ⊆ pool) (Fault.Arises source pool)
      (listLiteral inner ⟨source, scope, stop⟩ tokens).result := by
  unfold listLiteral
  split
  · exact Traced.ends_bind (itemsUpTo_ends blames scope placed rfl inside) fun _ left => left
  · split
    · exact (List.cons_subset.1 inside).2
    · exact Traced.ends_bind (itemsUpTo_ends blames scope placed rfl inside) fun _ left => left

omit placed in
theorem named_ends {head : Token} {name : String} (here : head ∈ pool)
    (kind : head.kind = .ident name) {rest : List Token} (inside : rest ⊆ pool) :
    Ends (fun step => step.rest ⊆ pool) (Fault.Arises source pool)
      (named inner ⟨source, scope, stop⟩ head name rest).result := by
  have slices := blamesSlices_readWhole (blames .expression)
  unfold named
  split
  · exact nameValue_ends scope stop head name inside
  · rename_i opening after
    obtain ⟨opens, later⟩ := List.cons_subset.1 inside
    split
    · have ends := @enclosed_ends source pool opening after opens later
      split
      · rename_i fault failed
        exact ends.error failed
      · rename_i arguments tail closed
        rw [closed] at ends
        have quotable : Quotable source pool name.toUpper := .called here (by rw [kind]; rfl)
        exact Traced.ends_bind (Call.read_ends slices scope quotable ends.1) fun _ _ => ends.2
    · exact nameValue_ends scope stop head name inside

theorem branches_ends (condition : Expr) {tokens : List Token} (inside : tokens ⊆ pool) :
    Ends (fun step => step.rest ⊆ pool) (Fault.Arises source pool)
      (branches inner ⟨source, scope, stop⟩ condition tokens).result := by
  apply Traced.ends_bind (blames .expression scope placed inside)
  intro yes left
  split
  · exact ⟨placed, trivial⟩
  · rename_i token rest behind
    have within : token :: rest ⊆ pool := by rwa [← behind]
    obtain ⟨here, later⟩ := List.cons_subset.1 within
    split
    · exact Traced.ends_bind (blames .expression scope placed later) fun _ after => after
    · exact ⟨.start here, trivial⟩

theorem conditional_ends {keyword : Token} (here : keyword ∈ pool)
    (kind : keyword.kind = .keyword .ifWord) {tokens : List Token} (inside : tokens ⊆ pool) :
    Ends (fun step => step.rest ⊆ pool) (Fault.Arises source pool)
      (conditional inner ⟨source, scope, stop⟩ keyword tokens).result := by
  have slices := blamesSlices_readWhole (blames .expression)
  have quotable : Quotable source pool "IF".toUpper := .called here (by rw [kind]; rfl)
  unfold conditional
  split
  · exact ⟨.stop here, trivial⟩
  · rename_i opening after
    obtain ⟨opens, later⟩ := List.cons_subset.1 inside
    split
    · have ends := @enclosed_ends source pool opening after opens later
      split
      · rename_i fault failed
        exact ends.error failed
      · rename_i condition tail closed
        rw [closed] at ends
        obtain ⟨within, behind⟩ := ends
        dsimp only
        split
        · exact Traced.ends_bind (Call.read_ends slices scope quotable within) fun _ _ => behind
        · split
          · split
            · exact ⟨.start opens, trivial⟩
            · apply Traced.ends_bind (slices scope within)
              intro test _
              have rest := (List.cons_subset.1 behind).2
              exact Traced.ends_bind (branches_ends blames scope placed test rest)
                fun _ left => left
          · exact Traced.ends_bind (Call.read_ends slices scope quotable within) fun _ _ => behind
    · exact ⟨.stop here, trivial⟩

omit placed in
theorem blamesReader_primary : BlamesReader source pool (primary inner) := by
  intro scope stop tokens placed inside
  unfold primary
  split
  · exact ⟨placed, trivial⟩
  · rename_i token rest
    obtain ⟨here, later⟩ := List.cons_subset.1 inside
    split
    · exact later
    · exact later
    · exact Traced.ends_bind (group_ends blames scope placed later) fun _ left => left
    · exact Traced.ends_bind (listLiteral_ends blames scope placed later) fun _ left => left
    · rename_i kind
      exact Traced.ends_bind (conditional_ends blames scope placed here kind later)
        fun _ left => left
    · rename_i name kind
      exact named_ends blames scope here kind later
    · exact ⟨.start here, token, here, rfl⟩

omit placed in
theorem blamesReader_power : BlamesReader source pool (power inner) := by
  intro scope stop tokens placed inside
  apply Traced.ends_bind (blamesReader_primary blames scope placed inside)
  intro base left
  split
  · exact left
  · rename_i token rest behind
    have within : token :: rest ⊆ pool := by rwa [← behind]
    split
    · apply Traced.ends_bind (blames .signed scope placed (List.cons_subset.1 within).2)
      exact fun _ after => after
    · exact left

omit placed in
theorem blamesReader_signed : BlamesReader source pool (signed inner) := by
  intro scope stop tokens placed inside
  unfold signed
  split
  · exact blamesReader_power blames scope placed inside
  · have later := (List.cons_subset.1 inside).2
    split
    · exact Traced.ends_bind (blames .signed scope placed later) fun _ left => left
    · split
      · exact Traced.ends_bind (blames .signed scope placed later) fun _ left => left
      · exact blamesReader_power blames scope placed inside

omit placed in
theorem blamesReader_sum : BlamesReader source pool (sum inner) :=
  blamesReader_leftAssociative (blamesReader_leftAssociative (blamesReader_signed blames))

omit placed in
theorem blamesReader_comparison : BlamesReader source pool (comparison inner) := by
  intro scope stop tokens placed inside
  apply Traced.ends_bind (blamesReader_sum blames scope placed inside)
  intro left after
  split
  · exact after
  · rename_i token rest behind
    have within : token :: rest ⊆ pool := by rwa [← behind]
    split
    · exact after
    · apply Traced.ends_bind (blamesReader_sum blames scope placed (List.cons_subset.1 within).2)
      exact fun _ last => last

omit placed in
theorem blamesReader_negation : BlamesReader source pool (negation inner) := by
  intro scope stop tokens placed inside
  unfold negation
  split
  · exact blamesReader_comparison blames scope placed inside
  · split
    · apply Traced.ends_bind (blames .negation scope placed (List.cons_subset.1 inside).2)
      exact fun _ left => left
    · exact blamesReader_comparison blames scope placed inside

omit placed in
theorem blamesReader_disjunction : BlamesReader source pool (disjunction inner) :=
  blamesReader_leftAssociative (blamesReader_leftAssociative (blamesReader_negation blames))

end Levels

theorem blamesReader_readerAt (levels : Nat) (entry : Entry) :
    BlamesReader source pool (readerAt levels entry) := by
  induction levels generalizing entry with
  | zero =>
    intro scope stop tokens placed inside
    refine ⟨?_, trivial⟩
    cases tokens with
    | nil => exact placed
    | cons token rest => exact .start (inside (by simp))
  | succ levels ih =>
    cases entry with
    | expression => exact blamesReader_disjunction ih
    | negation => exact blamesReader_negation ih
    | signed => exact blamesReader_signed ih

end Grammar

end Pool

/-- A formula is refused by the lexer, or for a fault that arises from its tokens. -/
theorem Formula.arises_of_compile {formula : String} {fault : Fault}
    (failed : (compile formula).result = .error fault) :
    tokenize formula = .error fault ∨
      ∃ tokens, tokenize formula = .ok tokens ∧ fault.Arises formula.toList tokens := by
  rw [compile, Traced.result_bind_eq_error] at failed
  rcases failed with failed | ⟨expr, -, success⟩
  · rw [parse, Traced.result_bind_eq_error] at failed
    rcases failed with unlexed | ⟨tokens, lexed, failed⟩
    · exact .inl unlexed
    · refine .inr ⟨tokens, lexed, ?_⟩
      split at failed
      · cases failed
      · have reader := @Grammar.blamesReader_readerAt formula.toList tokens maxNesting .expression
        have slices := Grammar.blamesSlices_readWhole reader
        exact (slices .entity (List.Subset.refl tokens)).error failed
  · cases success

/-- A join condition is refused by the lexer, or with its own text. -/
theorem arises_of_joinCollection {condition : String} {fault : Fault}
    (failed : joinCollection condition = .error fault) :
    tokenize condition = .error fault ∨ fault = .multiDotReference (Text.trim condition) ∨
      fault = .joinCondition (Text.trim condition) := by
  cases lexed : tokenize condition with
  | error other =>
    rw [joinCollection, lexed] at failed
    cases failed
    exact .inl rfl
  | ok tokens =>
    rw [joinCollection, lexed] at failed
    right
    simp only [bind, Except.bind] at failed
    split at failed
    · split at failed
      · unfold Scope.collection at failed
        dsimp only at failed
        split at failed <;> cases failed
        exact .inl rfl
      · cases failed
        exact .inl rfl
      · cases failed
        exact .inr rfl
    · cases failed
      exact .inr rfl

end Formulary
