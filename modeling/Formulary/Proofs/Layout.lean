import Mathlib
import Formulary.Proofs.Readers
import Formulary.Proofs.Spelling

set_option autoImplicit false

namespace Formulary

theorem Scope.collection_follows {tolerance : Tolerance} (scope : Scope) (names : List String)
    (text other : String) :
    Follows tolerance Eq (scope.collection names text) (scope.collection names other) := by
  unfold Scope.collection
  dsimp only
  split
  · exact .ok rfl
  · exact .ok rfl
  · exact .ok rfl
  · exact .variant rfl

/-- References of the same length with one head are refused together. -/
theorem Scope.value_follows {tolerance : Tolerance} (scope : Scope) {head : String}
    {names others : List String} (length : names.length = others.length) (text other : String) :
    Follows tolerance
      (fun path found =>
        path = scope.resolve (head :: names) ∧ found = scope.resolve (head :: others))
      (scope.value (head :: names) text) (scope.value (head :: others) other) := by
  have count : (scope.resolve (head :: names)).members.length =
      (scope.resolve (head :: others)).members.length := by
    unfold Scope.resolve
    dsimp only
    split
    · exact length
    · split
      · exact length
      · simpa using length
  unfold Scope.value
  simp only [count]
  split
  · exact .variant rfl
  · exact .ok ⟨rfl, rfl⟩

/-- The two readers give the same for lists that are alike. -/
def SteadySlices (tolerance : Tolerance) (read other : SliceReader) : Prop :=
  ∀ (scope : Scope) ⦃tokens others : List Token⦄, Alike tokens others →
    Follows tolerance Eq (read scope tokens).result (other scope others).result

section Slices

variable {tolerance : Tolerance} {read other : SliceReader}
  (steady : SteadySlices tolerance read other) (source text : List Char) (scope : Scope)
  {tokens others : List Token}

include steady

namespace Aggregation

theorem readCollection_follows (alike : Alike tokens others) :
    Follows tolerance Eq (readCollection read source scope tokens).result
      (readCollection other text scope others).result := by
  cases alike with
  | nil => exact .ok rfl
  | cons shape names rest =>
    have alike := Alike.cons shape names rest
    simp only [readCollection, ← alike.referenceNames?_eq]
    split
    · apply Traced.follows_bind (scope.collection_follows _ _ _)
      rintro collection _ rfl
      exact .ok rfl
    · exact steady scope alike

theorem readOptional_follows {part found : Option (List Token)}
    (same : Option.Rel Alike part found) :
    Follows tolerance Eq (readOptional read scope part).result
      (readOptional other scope found).result := by
  cases same with
  | none => exact .ok rfl
  | some alike =>
    apply Traced.follows_bind (steady scope alike)
    rintro expr _ rfl
    exact .ok rfl

theorem readSource_follows {clause found : Clause} (same : clause.Alike found) :
    Follows tolerance Eq (readSource read source scope clause).result
      (readSource other text scope found).result := by
  apply Traced.follows_bind (readCollection_follows steady source text scope same.collection)
  rintro collection _ rfl
  apply Traced.follows_bind (readOptional_follows steady _ same.predicate)
  rintro predicate _ rfl
  exact .ok rfl

variable (name : String)

theorem readReduction_follows (alike : Alike tokens others) :
    Follows tolerance Eq (readReduction read source name tokens scope).result
      (readReduction other text name others scope).result := by
  apply Traced.follows_bind (splitClause_follows alike)
  intro clause cut same
  apply Traced.follows_bind (readSource_follows steady source text scope same)
  rintro found _ rfl
  apply Traced.follows_bind (readOptional_follows steady _ same.projection)
  rintro projection _ rfl
  split
  · exact .ok rfl
  · exact .variant rfl

theorem readExtreme_follows (which : Extreme) (alike : Alike tokens others) :
    Follows tolerance Eq (readExtreme read source which name tokens scope).result
      (readExtreme other text which name others scope).result := by
  apply Traced.follows_bind alike.splitArguments_follows
  intro parts found each
  apply Traced.follows_bind (splitKeyed_follows each)
  rintro ⟨clause, key⟩ ⟨cut, again⟩ ⟨same, keys⟩
  apply Traced.follows_bind (readSource_follows steady source text scope same)
  rintro found _ rfl
  have bodies := steady (scope.lambda key.parameter) keys.body
  rw [← keys.parameter]
  apply Traced.follows_bind bodies
  rintro body _ rfl
  exact .ok rfl

theorem readTop_follows (alike : Alike tokens others) :
    Follows tolerance Eq (readTop read source name tokens scope).result
      (readTop other text name others scope).result := by
  apply Traced.follows_bind alike.splitArguments_follows
  intro parts found each
  rcases each with _ | ⟨first, rest⟩
  · exact .variant rfl
  rcases rest with _ | ⟨second, rest⟩
  · exact .variant rfl
  apply Traced.follows_bind (steady scope first)
  rintro count _ rfl
  apply Traced.follows_bind (splitKeyed_follows (.cons second rest))
  rintro ⟨clause, key⟩ ⟨cut, again⟩ ⟨same, keys⟩
  apply Traced.follows_bind (readSource_follows steady source text scope same)
  rintro found _ rfl
  have bodies := steady (scope.lambda key.parameter) keys.body
  rw [← keys.parameter]
  apply Traced.follows_bind bodies
  rintro body _ rfl
  exact .ok rfl

theorem read_follows (alike : Alike tokens others) :
    Follows tolerance Eq (Aggregation.read read source name tokens scope).result
      (Aggregation.read other text name others scope).result := by
  have noted (first second : LogRecord) : Follows tolerance (fun _ _ => True)
      (Traced.note first).result (Traced.note second).result := .ok trivial
  apply Traced.follows_bind (noted _ _)
  intro _ _ _
  split
  · exact readExtreme_follows steady source text scope _ .least alike
  · exact readExtreme_follows steady source text scope _ .greatest alike
  · exact readTop_follows steady source text scope _ alike
  · exact readReduction_follows steady source text scope name alike

end Aggregation

namespace Call

variable (signature : Signature)

omit steady

theorem keyword?_cons (word sign : Token) (value : List Token) :
    keyword? (word :: sign :: value) =
      if sign.kind = .equal then
        (word.kind.name?.bind ArgumentKey.ofName?).map fun key => (key, value)
      else none := by
  obtain ⟨kind, start, stop⟩ := word
  obtain ⟨mark, start', stop'⟩ := sign
  by_cases equals : mark = .equal
  · subst equals
    cases kind <;> rfl
  · rw [if_neg equals]
    unfold keyword?
    split
    · rename_i same
      simp_all
    · rfl

/-- Of two arguments that are alike, neither has a keyword or both have the same. -/
theorem keyword?_cases (alike : Alike tokens others) :
    (keyword? tokens = none ∧ keyword? others = none) ∨
      ∃ key value found, keyword? tokens = some (key, value) ∧
        keyword? others = some (key, found) ∧ Alike value found := by
  cases alike with
  | nil => exact .inl ⟨rfl, rfl⟩
  | @cons word again _ _ shape names rest =>
    cases rest with
    | nil =>
      have short (token : Token) : keyword? [token] = none := by
        unfold keyword?
        split
        · simp_all
        · rfl
      exact .inl ⟨short word, short again⟩
    | @cons sign mark value found shape' names' rest =>
      have equals := Iff.of_eq ((Kind.blind_eq .equal rfl).congr shape')
      rw [keyword?_cons, keyword?_cons]
      by_cases isSign : sign.kind = .equal
      · have same := names.resolve_right (by simp [opensNext, isSign])
        rw [if_pos isSign, if_pos (equals.1 isSign), same]
        cases again.kind.name?.bind ArgumentKey.ofName? with
        | none => exact .inl ⟨rfl, rfl⟩
        | some key => exact .inr ⟨key, value, found, rfl, rfl, rest⟩
      · rw [if_neg isSign, if_neg (mt equals.2 isSign)]
        exact .inl ⟨rfl, rfl⟩

include steady

theorem readPositional_follows (alike : Alike tokens others) :
    Follows tolerance Eq (readPositional read scope signature tokens).result
      (readPositional other scope signature others).result := by
  unfold readPositional
  rcases keyword?_cases alike with ⟨here, there⟩ | ⟨key, value, found, here, there, -⟩
  · rw [here, there]
    exact steady scope alike
  · rw [here, there]
    exact .variant rfl

theorem readAll_follows {parts found : List (List Token)} (each : List.Forall₂ Alike parts found) :
    Follows tolerance Eq (readAll read scope signature parts).result
      (readAll other scope signature found).result := by
  induction each with
  | nil => exact .ok rfl
  | cons alike rest ih =>
    apply Traced.follows_bind (readPositional_follows steady scope signature alike)
    rintro first _ rfl
    apply Traced.follows_bind ih
    rintro more _ rfl
    exact .ok rfl

theorem readValue_follows (key : ArgumentKey) (alike : Alike tokens others) :
    Follows tolerance Eq (readValue read scope signature key tokens).result
      (readValue other scope signature key others).result := by
  unfold readValue
  simp only [alike.eq_nil_iff]
  split
  · exact .variant rfl
  · exact steady scope alike

omit steady in
theorem memberName_cons (source : List Char) (token : Token) (rest : List Token) :
    memberName source signature (token :: rest) =
      match token.kind.name?, rest with
      | some name, [] => .ok name
      | _, _ => .error (.aggregationClause signature.name
          (.memberNotName (sourceText source (token :: rest)))) := by
  obtain ⟨kind, start, stop⟩ := token
  cases rest <;> cases kind <;> rfl

omit steady in
theorem memberName_follows (alike : Alike tokens others) :
    Follows tolerance Eq (memberName source signature tokens)
      (memberName text signature others) := by
  cases alike with
  | nil => exact .variant rfl
  | @cons first second tokens others shape names rest =>
    rw [memberName_cons, memberName_cons]
    cases rest with
    | nil =>
      have same := names.resolve_right (by simp [opensNext])
      rw [same]
      split
      · exact .ok rfl
      · exact .variant rfl
    | cons =>
      split
      · contradiction
      · split
        · contradiction
        · exact .variant rfl

theorem readOverMember_follows {collection again : List Token} (target : Alike collection again)
    (alike : Alike tokens others) :
    Follows tolerance Eq (readOverMember read source scope signature collection tokens).result
      (readOverMember other text scope signature again others).result := by
  apply Traced.follows_bind (readPositional_follows steady scope signature target)
  rintro expr _ rfl
  apply Traced.follows_bind (memberName_follows source text signature alike)
  rintro member _ rfl
  exact .ok rfl

theorem readAlongAxis_follows {target again : List Token} (array : Alike target again)
    (alike : Alike tokens others) :
    Follows tolerance Eq (readAlongAxis read source scope signature target tokens).result
      (readAlongAxis other text scope signature again others).result := by
  apply Traced.follows_bind (readPositional_follows steady scope signature array)
  rintro expr _ rfl
  rcases keyword?_cases alike with ⟨here, there⟩ | ⟨key, value, found, here, there, values⟩
  · rw [here, there]
    exact .variant rfl
  · rw [here, there]
    cases key with
    | axis =>
      apply Traced.follows_bind (readValue_follows steady scope signature .axis values)
      rintro axis _ rfl
      exact .ok rfl
    | index => exact .variant rfl

theorem readKeywords_follows {parts found : List (List Token)}
    (each : List.Forall₂ Alike parts found) (keywords : Keywords) :
    Follows tolerance Eq (readKeywords read source scope signature keywords parts).result
      (readKeywords other text scope signature keywords found).result := by
  induction each generalizing keywords with
  | nil => exact .ok rfl
  | cons alike rest ih =>
    rw [readKeywords, readKeywords]
    rcases keyword?_cases alike with ⟨here, there⟩ | ⟨key, value, found, here, there, values⟩
    · rw [here, there]
      exact .variant rfl
    · rw [here, there]
      dsimp only
      split
      · exact .variant rfl
      · apply Traced.follows_bind (readValue_follows steady scope signature key values)
        rintro expr _ rfl
        exact ih _

theorem readSlice_follows {target again : List Token} (array : Alike target again)
    {parts found : List (List Token)} (each : List.Forall₂ Alike parts found) :
    Follows tolerance Eq (readSlice read source scope signature target parts).result
      (readSlice other text scope signature again found).result := by
  apply Traced.follows_bind (readPositional_follows steady scope signature array)
  rintro expr _ rfl
  apply Traced.follows_bind (readKeywords_follows steady source text scope signature each _)
  rintro keywords _ rfl
  split
  · rename_i axis index _ _
    have checked : Follows tolerance Eq (checkAxis signature axis) (checkAxis signature axis) := by
      cases checkAxis signature axis with
      | ok _ => exact .ok rfl
      | error fault => exact .variant rfl
    apply Traced.follows_bind checked
    rintro _ _ rfl
    exact .ok rfl
  · exact .variant rfl

theorem readShape_follows {parts found : List (List Token)}
    (each : List.Forall₂ Alike parts found) :
    Follows tolerance Eq (readShape read source scope signature parts).result
      (readShape other text scope signature found).result := by
  have all : Follows tolerance Eq
      (readAll read scope signature parts >>= fun exprs => pure (Expr.call signature exprs)).result
      (readAll other scope signature found >>= fun exprs =>
        pure (Expr.call signature exprs)).result := by
    apply Traced.follows_bind (readAll_follows steady scope signature each)
    rintro exprs _ rfl
    exact .ok rfl
  unfold readShape
  cases signature.shape with
  | positional => exact all
  | buildingBlock => exact all
  | collectionField =>
    rcases each with _ | ⟨first, _ | ⟨second, _ | ⟨third, rest⟩⟩⟩
    · exact .variant rfl
    · exact .variant rfl
    · exact readOverMember_follows steady source text scope signature first second
    · exact .variant rfl
  | axisKeyword =>
    rcases each with _ | ⟨first, _ | ⟨second, _ | ⟨third, rest⟩⟩⟩
    · exact .variant rfl
    · apply Traced.follows_bind (readPositional_follows steady scope signature first)
      rintro target _ rfl
      exact .ok rfl
    · exact readAlongAxis_follows steady source text scope signature first second
    · exact .variant rfl
  | sliceKeywords =>
    rcases each with _ | ⟨first, rest⟩
    · exact .variant rfl
    · exact readSlice_follows steady source text scope signature first rest

omit steady in
theorem isRelational_eq (alike : Alike tokens others) (name : String) :
    Aggregation.isRelational name tokens scope = Aggregation.isRelational name others scope := by
  have selects {first second : Token} (shape : first.kind.shape = second.kind.shape) :
      (first.isWhere || first.isFatArrow) = (second.isWhere || second.isFatArrow) := by
    rw [Aggregation.isWhere_of_shape shape, Aggregation.isFatArrow_of_shape shape]
  unfold Aggregation.isRelational
  rw [alike.topLevel_eq selects, alike.referenceNames?_eq]

theorem read_follows (alike : Alike tokens others) {name called : String}
    (names : name.toUpper = called.toUpper) :
    Follows tolerance Eq (Call.read read source scope name tokens).result
      (Call.read other text scope called others).result := by
  simp only [Call.read, ← names, ← isRelational_eq scope alike]
  split
  · exact Aggregation.read_follows steady source text scope _ alike
  · split
    · exact .variant rfl
    · rename_i signature _
      apply Traced.follows_bind alike.splitArguments_follows
      intro parts found each
      rw [← each.length_eq]
      split
      · exact readShape_follows steady source text scope signature each
      · exact .variant rfl

end Call

end Slices

/-- Steps that leave lists that are alike. Their expressions are the same unless a round bracket
follows: the name in front of it may then be spelled in two ways, but no reader goes on there. -/
def Step.Alike {bound wider : Nat} (first : Step bound) (second : Step wider) : Prop :=
  Formulary.Alike first.rest second.rest ∧ (first.expr = second.expr ∨ opensNext first.rest = true)

namespace Grammar

variable {tolerance : Tolerance}

/-- The readers take lists that are alike in the same way, in any two contexts with one scope. -/
def Steady (tolerance : Tolerance) (reader beside : Reader) : Prop :=
  ∀ (source text : List Char) (scope : Scope) (stop final : Nat) ⦃tokens others : List Token⦄,
    Alike tokens others →
      Follows tolerance Step.Alike (reader ⟨source, scope, stop⟩ tokens).result
        (beside ⟨text, scope, final⟩ others).result

theorem steadySlices_readWhole {inner beside : Inner}
    (steady : Steady tolerance (inner .expression) (beside .expression))
    (source text : List Char) :
    SteadySlices tolerance (readWhole inner source) (readWhole beside text) := by
  intro scope tokens others alike
  cases alike with
  | nil => exact .variant rfl
  | cons shape names rest =>
    apply Traced.follows_bind (steady source text scope _ _ (.cons shape names rest))
    rintro ⟨expr, left, _⟩ ⟨found, after, _⟩ ⟨alike, same⟩
    cases alike with
    | nil => exact .ok (same.resolve_right (by simp [opensNext]))
    | cons => exact .variant rfl

/-- The operators of one level, which a bracket and a name are not. -/
structure IsLevel (operator? : Kind → Option BinaryOp) : Prop where
  blind : Kind.Blind operator?
  bracket : operator? .openParen = none

section Chains

variable {operator? : Kind → Option BinaryOp} {operand beside : Reader}
  (steady : Steady tolerance operand beside) (source text : List Char) (scope : Scope)
  (stop final : Nat)

include steady

theorem chain_follows (level : IsLevel operator?) {left right : Expr} {tokens others : List Token}
    (alike : Alike tokens others) (same : left = right ∨ opensNext tokens = true) :
    Follows tolerance Step.Alike
      (chain operator? operand ⟨source, scope, stop⟩ left tokens).result
      (chain operator? beside ⟨text, scope, final⟩ right others).result := by
  obtain ⟨size, bound⟩ : ∃ size, tokens.length < size := ⟨_, Nat.lt_succ_self _⟩
  induction size generalizing left right tokens others with
  | zero => exact absurd bound (Nat.not_lt_zero _)
  | succ size ih =>
    cases alike with
    | nil =>
      rw [chain, chain]
      exact .ok ⟨.nil, same⟩
    | @cons first second tokens others shape names rest =>
      rw [chain, chain, ← level.blind.congr shape]
      split
      · exact .ok ⟨.cons shape names rest, same⟩
      · rename_i op found
        have apart : first.kind ≠ .openParen := by
          intro opens
          rw [opens, level.bracket] at found
          cases found
        obtain rfl := same.resolve_right (by simp [opensNext, apart])
        apply Traced.follows_bind (steady source text scope stop final rest)
        rintro ⟨value, after, shorter⟩ ⟨again, behind, _⟩ ⟨alike, same⟩
        have fewer : after.length < size := by
          rw [List.length_cons] at bound
          omega
        have operands : Expr.binary op left value = .binary op left again ∨
            opensNext after = true := same.imp_left (congrArg _)
        exact Traced.follows_bind (ih alike operands fewer) fun _ _ steps => .ok steps

theorem steady_leftAssociative (level : IsLevel operator?) :
    Steady tolerance (leftAssociative operator? operand) (leftAssociative operator? beside) := by
  intro source text scope stop final tokens others alike
  apply Traced.follows_bind (steady source text scope stop final alike)
  rintro first second ⟨left, same⟩
  exact Traced.follows_bind (chain_follows steady source text scope stop final level left same)
    fun _ _ steps => .ok steps

/-- As for steps, of lists of expressions. -/
def Items.Alike {bound wider : Nat} (first : Items bound) (second : Items wider) : Prop :=
  Formulary.Alike first.rest second.rest ∧
    (first.exprs = second.exprs ∨ opensNext first.rest = true)

theorem items_follows {tokens others : List Token} (alike : Alike tokens others) :
    Follows tolerance Items.Alike (items operand ⟨source, scope, stop⟩ tokens).result
      (items beside ⟨text, scope, final⟩ others).result := by
  obtain ⟨size, bound⟩ : ∃ size, tokens.length < size := ⟨_, Nat.lt_succ_self _⟩
  induction size generalizing tokens others with
  | zero => exact absurd bound (Nat.not_lt_zero _)
  | succ size ih =>
    rw [items, items]
    apply Traced.follows_bind (steady source text scope stop final alike)
    rintro ⟨expr, left, shorter⟩ ⟨again, after, _⟩ ⟨alike, same⟩
    cases alike with
    | nil => exact .ok ⟨.nil, same.imp_left (congrArg ([·]))⟩
    | @cons first second left after shape names rest =>
      dsimp only
      rw [← Aggregation.isComma_of_shape shape]
      split
      · rename_i isComma
        have fewer : left.length < size := by
          rw [List.length_cons] at shorter
          omega
        have apart : opensNext (first :: left) = false := by
          simp_all [opensNext, Token.isComma]
        obtain rfl := same.resolve_right (by simp [apart])
        apply Traced.follows_bind (ih rest fewer)
        rintro more found ⟨alike, same⟩
        exact .ok ⟨alike, same.imp_left (congrArg _)⟩
      · exact .ok ⟨.cons shape names rest, same.imp_left (congrArg ([·]))⟩

end Chains

theorem isLevel_sum : IsLevel sumOperator? := ⟨fun kind => by cases kind <;> rfl, rfl⟩

theorem isLevel_product : IsLevel productOperator? := ⟨fun kind => by cases kind <;> rfl, rfl⟩

theorem isLevel_comparison : IsLevel comparisonOperator? :=
  ⟨fun kind => by cases kind <;> rfl, rfl⟩

theorem isLevel_and : IsLevel andOperator? := ⟨fun kind => by cases kind <;> rfl, rfl⟩

theorem isLevel_or : IsLevel orOperator? := ⟨fun kind => by cases kind <;> rfl, rfl⟩

/-- What a list of expressions leaves starts with the closing token or fails. -/
theorem expect_follows {wanted : Kind} (fixed : wanted.isFixed = true)
    (other : wanted ≠ .openParen) {tokens others : List Token} (alike : Alike tokens others)
    (context again : Context) :
    Follows tolerance (fun rest after => Alike rest after ∧ opensNext tokens = false)
      (expect context wanted tokens) (expect again wanted others) := by
  cases alike with
  | nil => exact .variant rfl
  | @cons first second tokens others shape names rest =>
    have same := Iff.of_eq ((Kind.blind_eq wanted fixed).congr shape)
    rw [expect, expect]
    by_cases closes : first.kind = wanted
    · rw [if_pos closes, if_pos (same.1 closes)]
      exact .ok ⟨rest, by simp [opensNext, closes, other]⟩
    · rw [if_neg closes, if_neg (mt same.2 closes)]
      exact .variant rfl

/-- No member mark stands next where a round bracket does. -/
theorem notNext_of_opensNext {tokens : List Token} (opens : opensNext tokens = true) :
    NotNext (fun kind => kind.isMemberMark) tokens := by
  cases tokens with
  | nil => cases opens
  | cons token rest =>
    have kind : token.kind = .openParen := by simpa [opensNext] using opens
    simp [kind, Kind.isMemberMark]

theorem members_follows (stop final : Nat) {tokens others : List Token}
    (alike : Alike tokens others) :
    Follows tolerance
      (fun first second => Alike first.rest second.rest ∧
        first.names.length = second.names.length ∧
        (first.names = second.names ∨ opensNext first.rest = true))
      (members stop tokens) (members final others) := by
  fun_induction members stop tokens generalizing others final with
  | case1 stop =>
    cases alike
    exact .ok ⟨.nil, rfl, .inl rfl⟩
  | case2 stop mark isMark =>
    rcases alike with _ | ⟨shape, names, _ | _⟩
    rw [members, ← Kind.blind_isMemberMark.congr shape, if_pos isMark]
    exact .variant rfl
  | case3 stop mark notMark =>
    rcases alike with _ | ⟨shape, names, _ | _⟩
    rw [members, ← Kind.blind_isMemberMark.congr shape, if_neg notMark]
    exact .ok ⟨.cons shape names .nil, rfl, .inl rfl⟩
  | case4 stop mark token rest isMark unnamed =>
    rcases alike with _ | ⟨shape, names, _ | ⟨shape', names', others⟩⟩
    rw [members, ← Kind.blind_isMemberMark.congr shape, if_pos isMark]
    rw [names'.name?_eq_none unnamed]
    exact .variant rfl
  | case5 stop mark token rest isMark name named ih =>
    rcases alike with _ | ⟨shape, names, _ | ⟨shape', names', others⟩⟩
    obtain ⟨spelled, again, same⟩ := names'.name?_eq_some named
    rw [members, ← Kind.blind_isMemberMark.congr shape, if_pos isMark, again]
    rcases same with rfl | ⟨called, -⟩
    · apply (ih _ others).bind
      rintro first second ⟨left, length, same⟩
      exact .ok ⟨left, congrArg (· + 1) length, same.imp_left (congrArg _)⟩
    · -- a bracket follows the name, so it is the last one
      obtain ⟨_, here⟩ := @members_of_notNext token.stop _ (notNext_of_opensNext called)
      have called' := others.opensNext_eq ▸ called
      obtain ⟨_, there⟩ := members_of_notNext (notNext_of_opensNext called')
      rw [here, there]
      exact .ok ⟨others, rfl, .inr called⟩
  | case6 stop mark token rest notMark =>
    rcases alike with _ | ⟨shape, names, _ | ⟨shape', names', others⟩⟩
    rw [members, ← Kind.blind_isMemberMark.congr shape, if_neg notMark]
    exact .ok ⟨.cons shape names (.cons shape' names' others), rfl, .inl rfl⟩

section Levels

variable {inner beside : Inner}
  (steady : ∀ entry, Steady tolerance (inner entry) (beside entry)) (source text : List Char)
  (scope : Scope) (stop final : Nat) {tokens others : List Token}

theorem nameValue_follows (alike : Alike tokens others) (head other : Token) (name : String) :
    Follows tolerance Step.Alike (nameValue ⟨source, scope, stop⟩ head name tokens).result
      (nameValue ⟨text, scope, final⟩ other name others).result := by
  unfold nameValue
  split
  · exact .ok ⟨alike, .inl rfl⟩
  · apply Traced.follows_bind (members_follows head.stop other.stop alike)
    rintro first second ⟨left, length, same⟩
    apply Traced.follows_bind (scope.value_follows length _ _)
    rintro _ _ ⟨rfl, rfl⟩
    exact .ok ⟨left, same.imp_left fun names => by rw [names]⟩

include steady

theorem itemsUpTo_follows (closing : Kind) (fixed : closing.isFixed = true)
    (apart : closing ≠ .openParen) (alike : Alike tokens others) :
    Follows tolerance
      (fun first second => first.exprs = second.exprs ∧ Alike first.rest second.rest)
      (itemsUpTo closing (inner .expression) ⟨source, scope, stop⟩ tokens).result
      (itemsUpTo closing (beside .expression) ⟨text, scope, final⟩ others).result := by
  apply Traced.follows_bind (items_follows (steady .expression) source text scope stop final alike)
  rintro first second ⟨left, same⟩
  apply (expect_follows fixed apart left ⟨source, scope, stop⟩ ⟨text, scope, final⟩).branch
  · intro fault failed
    split <;> simp_all
  · intro fault failed
    split <;> simp_all
  · rintro rest after here there ⟨behind, apart⟩
    split <;> rename_i found <;> rw [here] at found <;> cases found
    split <;> rename_i found <;> rw [there] at found <;> cases found
    exact .ok ⟨same.resolve_right (by simp [apart]), behind⟩

theorem group_follows (alike : Alike tokens others) :
    Follows tolerance Step.Alike (group inner ⟨source, scope, stop⟩ tokens).result
      (group beside ⟨text, scope, final⟩ others).result := by
  apply Traced.follows_bind
    (itemsUpTo_follows steady source text scope stop final .closeParen rfl (by simp) alike)
  rintro first second ⟨same, left⟩
  rw [← same]
  split
  · exact .ok ⟨left, .inl rfl⟩
  · exact .ok ⟨left, .inl rfl⟩

theorem listLiteral_follows (alike : Alike tokens others) :
    Follows tolerance Step.Alike (listLiteral inner ⟨source, scope, stop⟩ tokens).result
      (listLiteral beside ⟨text, scope, final⟩ others).result := by
  have listed {tokens others : List Token} (alike : Alike tokens others) :=
    itemsUpTo_follows steady source text scope stop final .closeBracket rfl (by simp) alike
  cases alike with
  | nil =>
    apply Traced.follows_bind (listed .nil)
    rintro first second ⟨same, left⟩
    exact .ok ⟨left, .inl (congrArg Expr.list same)⟩
  | @cons first second tokens others shape names rest =>
    have closing := Iff.of_eq ((Kind.blind_eq .closeBracket rfl).congr shape)
    rw [listLiteral, listLiteral]
    by_cases closes : first.kind = .closeBracket
    · rw [if_pos closes, if_pos (closing.1 closes)]
      exact .ok ⟨rest, .inl rfl⟩
    · rw [if_neg closes, if_neg (mt closing.2 closes)]
      apply Traced.follows_bind (listed (.cons shape names rest))
      rintro first second ⟨same, left⟩
      exact .ok ⟨left, .inl (congrArg Expr.list same)⟩

theorem named_follows (alike : Alike tokens others) (head other : Token) {name called : String}
    (names : name = called ∨ (opensNext tokens = true ∧ name.toUpper = called.toUpper)) :
    Follows tolerance Step.Alike (named inner ⟨source, scope, stop⟩ head name tokens).result
      (named beside ⟨text, scope, final⟩ other called others).result := by
  have slices := steadySlices_readWhole (steady .expression) source text
  cases alike with
  | nil =>
    obtain rfl := names.resolve_right (by simp [opensNext])
    exact nameValue_follows source text scope stop final .nil head other name
  | @cons opening bracket tokens others shape bracketNames rest =>
    have opens := Iff.of_eq ((Kind.blind_eq .openParen rfl).congr shape)
    rw [named, named]
    by_cases isCall : opening.kind = .openParen
    · have upper : name.toUpper = called.toUpper := names.elim (congrArg _) And.right
      rw [if_pos isCall, if_pos (opens.1 isCall)]
      apply (rest.enclosed_follows opening bracket).branch
      · intro fault failed
        split <;> simp_all
      · intro fault failed
        split <;> simp_all
      · rintro ⟨arguments, tail⟩ ⟨parts, after⟩ here there ⟨inside, behind⟩
        split <;> rename_i found <;> rw [here] at found <;> cases found
        split <;> rename_i found <;> rw [there] at found <;> cases found
        apply Traced.follows_bind (Call.read_follows slices source text scope inside upper)
        rintro expr _ rfl
        exact .ok ⟨behind, .inl rfl⟩
    · rw [if_neg isCall, if_neg (mt opens.2 isCall)]
      obtain rfl := names.resolve_right (by simp [opensNext, isCall])
      exact nameValue_follows source text scope stop final (.cons shape bracketNames rest) head
        other name

theorem branches_follows (alike : Alike tokens others) (condition : Expr) :
    Follows tolerance Step.Alike
      (branches inner ⟨source, scope, stop⟩ condition tokens).result
      (branches beside ⟨text, scope, final⟩ condition others).result := by
  apply Traced.follows_bind (steady .expression source text scope stop final alike)
  rintro ⟨yes, left, _⟩ ⟨found, after, _⟩ ⟨alike, same⟩
  cases alike with
  | nil => exact .variant rfl
  | @cons first second left after shape names rest =>
    have elses := Iff.of_eq ((Kind.blind_eq (.keyword .elseWord) rfl).congr shape)
    dsimp only
    by_cases isElse : first.kind = .keyword .elseWord
    · rw [if_pos isElse, if_pos (elses.1 isElse)]
      obtain rfl := same.resolve_right (by simp [opensNext, isElse])
      apply Traced.follows_bind (steady .expression source text scope stop final rest)
      rintro ⟨no, behind, _⟩ ⟨again, beyond, _⟩ ⟨alike, same⟩
      exact .ok ⟨alike, same.imp_left (congrArg _)⟩
    · rw [if_neg isElse, if_neg (mt elses.2 isElse)]
      exact .variant rfl

theorem conditional_follows (alike : Alike tokens others) (keyword other : Token) :
    Follows tolerance Step.Alike (conditional inner ⟨source, scope, stop⟩ keyword tokens).result
      (conditional beside ⟨text, scope, final⟩ other others).result := by
  have slices := steadySlices_readWhole (steady .expression) source text
  cases alike with
  | nil => exact .variant rfl
  | @cons opening bracket tokens others shape names rest =>
    have opens := Iff.of_eq ((Kind.blind_eq .openParen rfl).congr shape)
    generalize again : conditional beside ⟨text, scope, final⟩ other (bracket :: others) = second
    rw [conditional] at again ⊢
    by_cases isOpen : opening.kind = .openParen
    · rw [if_pos isOpen]
      rw [if_pos (opens.1 isOpen)] at again
      apply (rest.enclosed_follows opening bracket).branch
      · intro fault failed
        split <;> simp_all
      · intro fault failed
        subst again
        split <;> simp_all
      · rintro ⟨condition, tail⟩ ⟨test, after⟩ here there ⟨inside, behind⟩
        split <;> rename_i found <;> rw [here] at found <;> cases found
        split at again <;> rename_i found <;> rw [there] at found <;> cases found
        subst again
        have called := @Call.read_follows _ _ _ slices source text scope _ _ inside "IF" "IF" rfl
        cases behind with
        | nil =>
          apply Traced.follows_bind called
          rintro expr _ rfl
          exact .ok ⟨.nil, .inl rfl⟩
        | @cons first second tail after shape names rest =>
          have thens := Iff.of_eq ((Kind.blind_eq (.keyword .thenWord) rfl).congr shape)
          dsimp only
          by_cases isThen : first.kind = .keyword .thenWord
          · rw [if_pos isThen, if_pos (thens.1 isThen)]
            simp only [inside.eq_nil_iff]
            split
            · exact .variant rfl
            · apply Traced.follows_bind (slices scope inside)
              rintro test _ rfl
              apply Traced.follows_bind
                (branches_follows steady source text scope stop final rest test)
              exact fun _ _ steps => .ok steps
          · rw [if_neg isThen, if_neg (mt thens.2 isThen)]
            apply Traced.follows_bind called
            rintro expr _ rfl
            exact .ok ⟨.cons shape names rest, .inl rfl⟩
    · rw [if_neg isOpen]
      rw [if_neg (mt opens.2 isOpen)] at again
      subst again
      exact .variant rfl

omit steady source text scope stop final in
theorem primary_memberMark {context : Context} {token : Token}
    (mark : token.kind.isMemberMark = true) :
    (primary inner context (token :: tokens)).result =
      .error (.malformed token.start (.unexpectedToken token.kind)) := by
  cases kind : token.kind <;> simp_all [primary, Kind.isMemberMark]

omit source text scope stop final in
theorem steady_primary : Steady tolerance (primary inner) (primary beside) := by
  intro source text scope stop final tokens others alike
  cases alike with
  | nil => exact .variant rfl
  | @cons first second tokens others shape names rest =>
    by_cases fixed : first.kind.isFixed = true
    · have same : second.kind = first.kind :=
        (Iff.of_eq ((Kind.blind_eq first.kind fixed).congr shape)).1 rfl
      rw [primary, primary, same]
      split
      · exact .ok ⟨rest, .inl rfl⟩
      · exact .ok ⟨rest, .inl rfl⟩
      · exact Traced.follows_bind (group_follows steady source text scope stop final rest)
          fun _ _ steps => .ok steps
      · exact Traced.follows_bind (listLiteral_follows steady source text scope stop final rest)
          fun _ _ steps => .ok steps
      · exact Traced.follows_bind
          (conditional_follows steady source text scope stop final rest first second)
          fun _ _ steps => .ok steps
      · rename_i name kind
        rw [kind] at fixed
        cases fixed
      · exact .variant rfl
    · cases mark : first.kind.isMemberMark with
      | true =>
        have again := Kind.blind_isMemberMark.congr shape ▸ mark
        rw [primary_memberMark mark, primary_memberMark again]
        exact .variant rfl
      | false =>
        obtain ⟨name, named⟩ : ∃ name, first.kind.name? = some name :=
          Option.ne_none_iff_exists'.1 (by simpa [Kind.isFixed, mark] using fixed)
        obtain ⟨called, again, same⟩ := names.name?_eq_some named
        rw [primary, primary, Kind.name?_eq_some_iff.1 named, Kind.name?_eq_some_iff.1 again]
        exact named_follows steady source text scope stop final rest first second same

omit source text scope stop final in
theorem steady_power : Steady tolerance (power inner) (power beside) := by
  intro source text scope stop final tokens others alike
  apply Traced.follows_bind (steady_primary steady source text scope stop final alike)
  rintro ⟨base, left, _⟩ ⟨again, after, _⟩ ⟨alike, same⟩
  cases alike with
  | nil => exact .ok ⟨.nil, same⟩
  | @cons first second left after shape names rest =>
    have carets := Iff.of_eq ((Kind.blind_eq .caret rfl).congr shape)
    dsimp only
    by_cases isCaret : first.kind = .caret
    · rw [if_pos isCaret, if_pos (carets.1 isCaret)]
      obtain rfl := same.resolve_right (by simp [opensNext, isCaret])
      apply Traced.follows_bind (steady .signed source text scope stop final rest)
      rintro ⟨exponent, behind, _⟩ ⟨found, beyond, _⟩ ⟨alike, same⟩
      exact .ok ⟨alike, same.imp_left (congrArg _)⟩
    · rw [if_neg isCaret, if_neg (mt carets.2 isCaret)]
      exact .ok ⟨.cons shape names rest, same⟩

omit source text scope stop final in
theorem steady_signed : Steady tolerance (signed inner) (signed beside) := by
  intro source text scope stop final tokens others alike
  have alone := steady_power steady source text scope stop final alike
  cases alike with
  | nil => exact alone
  | @cons first second tokens others shape names rest =>
    have minuses := Iff.of_eq ((Kind.blind_eq .minus rfl).congr shape)
    have pluses := Iff.of_eq ((Kind.blind_eq .plus rfl).congr shape)
    have operand := steady .signed source text scope stop final rest
    rw [signed, signed]
    by_cases isMinus : first.kind = .minus
    · rw [if_pos isMinus, if_pos (minuses.1 isMinus)]
      apply Traced.follows_bind operand
      rintro value again ⟨alike, same⟩
      exact .ok ⟨alike, same.imp_left (congrArg Expr.negate)⟩
    · rw [if_neg isMinus, if_neg (mt minuses.2 isMinus)]
      by_cases isPlus : first.kind = .plus
      · rw [if_pos isPlus, if_pos (pluses.1 isPlus)]
        exact Traced.follows_bind operand fun _ _ steps => .ok steps
      · rw [if_neg isPlus, if_neg (mt pluses.2 isPlus)]
        exact alone

omit source text scope stop final in
theorem steady_sum : Steady tolerance (sum inner) (sum beside) :=
  steady_leftAssociative (steady_leftAssociative (steady_signed steady) isLevel_product) isLevel_sum

omit source text scope stop final in
theorem steady_comparison : Steady tolerance (comparison inner) (comparison beside) := by
  intro source text scope stop final tokens others alike
  apply Traced.follows_bind (steady_sum steady source text scope stop final alike)
  rintro ⟨expr, left, _⟩ ⟨again, after, _⟩ ⟨alike, same⟩
  cases alike with
  | nil => exact .ok ⟨.nil, same⟩
  | @cons first second left after shape names rest =>
    dsimp only
    rw [← isLevel_comparison.blind.congr shape]
    split
    · exact .ok ⟨.cons shape names rest, same⟩
    · rename_i op found
      have apart : first.kind ≠ .openParen := by
        intro opens
        rw [opens, isLevel_comparison.bracket] at found
        cases found
      obtain rfl := same.resolve_right (by simp [opensNext, apart])
      apply Traced.follows_bind (steady_sum steady source text scope stop final rest)
      rintro ⟨value, behind, _⟩ ⟨other, beyond, _⟩ ⟨alike, same⟩
      exact .ok ⟨alike, same.imp_left (congrArg _)⟩

omit source text scope stop final in
theorem steady_negation : Steady tolerance (negation inner) (negation beside) := by
  intro source text scope stop final tokens others alike
  have alone := steady_comparison steady source text scope stop final alike
  cases alike with
  | nil => exact alone
  | @cons first second tokens others shape names rest =>
    have nots := Iff.of_eq ((Kind.blind_eq (.keyword .notWord) rfl).congr shape)
    rw [negation, negation]
    by_cases isNot : first.kind = .keyword .notWord
    · rw [if_pos isNot, if_pos (nots.1 isNot)]
      apply Traced.follows_bind (steady .negation source text scope stop final rest)
      rintro value again ⟨alike, same⟩
      exact .ok ⟨alike, same.imp_left (congrArg Expr.not)⟩
    · rw [if_neg isNot, if_neg (mt nots.2 isNot)]
      exact alone

omit source text scope stop final in
theorem steady_disjunction : Steady tolerance (disjunction inner) (disjunction beside) :=
  steady_leftAssociative (steady_leftAssociative (steady_negation steady) isLevel_and) isLevel_or

end Levels

/-- Readers with levels to spare read at least what readers without read. -/
theorem steady_readerAt (levels spare : Nat)
    (deepest : ∀ entry, Steady tolerance tooDeep (readerAt spare entry)) (entry : Entry) :
    Steady tolerance (readerAt levels entry) (readerAt (spare + levels) entry) := by
  induction levels generalizing entry with
  | zero => exact deepest entry
  | succ levels ih =>
    cases entry with
    | expression => exact steady_disjunction ih
    | negation => exact steady_negation ih
    | signed => exact steady_signed ih

theorem steady_same (tolerance : Tolerance) (levels : Nat) (entry : Entry) :
    Steady tolerance (readerAt levels entry) (readerAt levels entry) := by
  have deepest (entry : Entry) : Steady tolerance tooDeep (readerAt 0 entry) :=
    fun _ _ _ _ _ _ _ _ => .variant rfl
  have steady := steady_readerAt levels 0 deepest entry
  rwa [Nat.zero_add] at steady

end Grammar

namespace Formula

theorem tokenize_of_spelled {formula : String} {kinds : List Kind}
    (spelled : (tokenize formula).map spelling = .ok kinds) :
    ∃ tokens, tokenize formula = .ok tokens ∧ spelling tokens = kinds := by
  cases lexed : tokenize formula with
  | error fault =>
    rw [lexed] at spelled
    cases spelled
  | ok tokens =>
    rw [lexed] at spelled
    exact ⟨tokens, rfl, Except.ok.inj spelled⟩

theorem readSlice_follows (source text : List Char) {tokens others : List Token}
    (alike : Alike tokens others) :
    Follows .strict Eq (readSlice source .entity tokens).result
      (readSlice text .entity others).result := by
  have steady := Grammar.steady_same .strict maxNesting .expression
  exact Grammar.steadySlices_readWhole steady source text .entity alike

theorem parse_follows {first second : String} {tokens others : List Token}
    (lexed : tokenize first = .ok tokens) (lexedAgain : tokenize second = .ok others)
    (alike : Alike tokens others) :
    Follows .strict Eq (parse first).result (parse second).result := by
  have slices := readSlice_follows first.toList second.toList alike
  unfold parse
  rw [lexed, lexedAgain]
  cases alike with
  | nil => exact .ok rfl
  | cons => exact slices

/-- Layout, the choice between `.` and `->` and the case of function names do not
matter: formulas whose tokens have the same spelling get the same code and the same needs, or
faults of the same variant. -/
theorem compile_layout {first second : String} {kinds : List Kind}
    (spelled : (tokenize first).map spelling = .ok kinds)
    (spelledAgain : (tokenize second).map spelling = .ok kinds) :
    (compile first).result.mapError Fault.variant =
      (compile second).result.mapError Fault.variant := by
  obtain ⟨tokens, lexed, rfl⟩ := tokenize_of_spelled spelled
  obtain ⟨others, lexedAgain, same⟩ := tokenize_of_spelled spelledAgain
  have follows := parse_follows lexed lexedAgain (alike_of_spelling same.symm)
  rw [compile, compile, Traced.result_bind, Traced.result_bind]
  generalize (parse first).result = ended at follows
  generalize (parse second).result = endedAgain at follows
  cases follows with
  | ok same => rw [same]
  | error allowed => exact congrArg Except.error (Option.some.inj allowed.symm)
  | rescued allowed => cases allowed

theorem compile_layout_count :
    (compile " Count ( order->items where price>2 )+1 ").result.mapError Fault.variant =
      .ok ⟨"(sum(1 for item in [item.items for item in self.order] if (item.price > 2)) + 1)",
        .none⟩ := by
  have kinds : (tokenize "COUNT(order.items WHERE price > 2) + 1").map spelling =
      .ok [.ident "COUNT", .openParen, .ident "order", .dot, .ident "items", .keyword .whereWord,
        .ident "price", .greater, .number "2", .closeParen, .plus, .number "1"] := by cbv
  have accepted : (compile "COUNT(order.items WHERE price > 2) + 1").result.mapError Fault.variant =
      .ok ⟨"(sum(1 for item in [item.items for item in self.order] if (item.price > 2)) + 1)",
        .none⟩ := by decide_cbv
  exact (compile_layout kinds (by cbv)).symm.trans accepted

end Formula

end Formulary
