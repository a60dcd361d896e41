import Mathlib
import Formulary.Proofs.Uses

set_option autoImplicit false

namespace Formulary

/-- The path with the field, where one is taken of every element. -/
def Collection.path : Collection → Path
  | whole path => path
  | projected path field _ => ⟨path.receiver, path.members ++ [field]⟩

namespace Expr

mutual

/-- The references in a tree, in the order of its parts. -/
def paths : Expr → List Path
  | number _ => []
  | text _ => []
  | boolean _ => []
  | null => []
  | reference collection => [collection.path]
  | not operand => operand.paths
  | negate operand => operand.paths
  | binary _ left right => left.paths ++ right.paths
  | conditional condition yes no => condition.paths ++ yes.paths ++ no.paths
  | tuple items => pathsAll items
  | list items => pathsAll items
  | call _ arguments => pathsAll arguments
  | overMember _ collection _ _ => collection.paths
  | alongAxis _ target axis => target.paths ++ pathsOption axis
  | slice _ target axis index => target.paths ++ axis.paths ++ index.paths
  | reduce _ _ collection predicate projection =>
    collection.paths ++ pathsOption predicate ++ pathsOption projection
  | extreme _ _ collection predicate _ key =>
    collection.paths ++ pathsOption predicate ++ key.paths
  | top count _ collection predicate _ key =>
    count.paths ++ (collection.paths ++ pathsOption predicate ++ key.paths)

def pathsAll : List Expr → List Path
  | [] => []
  | item :: rest => item.paths ++ pathsAll rest

def pathsOption : Option Expr → List Path
  | none => []
  | some expr => expr.paths

end

end Expr

theorem isPlain_of_infixOperator? {kind : Kind} {op : BinaryOp}
    (known : infixOperator? kind = some op) : kind.isPlain = true := by
  cases kind with
  | keyword word => cases word <;> first | rfl | cases known
  | _ => first | rfl | cases known

theorem isPlain_of_calledName? {kind : Kind} {name : String}
    (known : calledName? kind = some name) : kind.isPlain = true := by
  cases kind with
  | keyword word => cases word <;> first | rfl | cases known
  | _ => first | rfl | cases known

/-- Whether tokens of such a reading are one part of a clause. -/
def Reading.isPart : Reading → Bool
  | .items [_] => true
  | .collection _ => true
  | _ => false

/-- Nothing outside the brackets of an expression tells parts apart. -/
theorem isPart_of_reads {scope : Scope} {tokens : List Token} {reading : Reading}
    (reads : Reads scope tokens reading) (single : reading.isPart = true) : IsPart tokens := by
  induction reads with
  | number kind | text kind => exact .cons (by rw [kind]; rfl) .nil
  | literal kind known => exact .cons (by rw [kind]; rfl) .nil
  | reference dotted => exact .of_dotted dotted
  | group opens closes inside | tuple opens closes inside | list opens closes inside =>
    exact .bracketed (by rw [opens]; rfl) (by rw [closes]; rfl) (by rw [closes]; rfl)
      (closed_of_reads inside).weaken
  | not kind operand ih | negate kind operand ih | positive kind operand ih =>
    exact .cons (by rw [kind]; rfl) (ih rfl)
  | binary kind first second ihFirst ihSecond =>
    exact (ihFirst rfl).append (.cons (isPlain_of_infixOperator? kind) (ihSecond rfl))
  | conditional isIf opens closes isThen isElse test first second ihTest ihFirst ihSecond =>
    have branches := (ihFirst rfl).append (.cons (by rw [isElse]; rfl) (ihSecond rfl))
    have tested := IsPart.bracketed (by rw [opens]; rfl) (by rw [closes]; rfl)
      (by rw [closes]; rfl) (closed_of_reads test).weaken
    have whole := IsPart.cons (by rw [isIf]; rfl)
      (tested.append (.cons (by rw [isThen]; rfl) branches))
    simpa using whole
  | call kind opens closes inside ih =>
    exact .cons (isPlain_of_calledName? kind) (.bracketed (by rw [opens]; rfl) (by rw [closes]; rfl)
      (by rw [closes]; rfl) (closed_of_reads inside))
  | receiver => exact .nil
  | named dotted => exact .of_dotted dotted
  | computed given _ ih => exact ih rfl
  | _ => cases single

theorem ne_nil_of_reads {scope : Scope} {tokens : List Token} {expr : Expr} {exprs : List Expr}
    (reads : Reads scope tokens (.items (expr :: exprs))) : tokens ≠ [] := by
  rintro rfl
  generalize same : ([] : List Token) = tokens at reads
  cases reads with
  | reference dotted =>
    subst same
    cases dotted
  | _ => simp at same

/-- What the references in a portion stand for. -/
def Portion.paths (levels : Nat) (portion : Portion) : List Path :=
  (portion.uses (usesAt levels)).map Use.path

section Portions

variable {levels : Nat} {binders : List Binder} {name : String} {tokens : List Token}

theorem paths_expression : Portion.paths levels ⟨binders, tokens, false⟩ =
    (references (callUses levels binders) binders tokens).map Use.path := rfl

theorem map_path_callUses : (callUses (levels + 1) binders name tokens).map Use.path =
    (portions binders name.toUpper tokens).flatMap (Portion.paths levels) := by
  rw [callUses, List.map_flatMap]
  rfl

theorem portions_of_positional {signature : Signature}
    (found : Signature.lookup? name = some signature)
    (table : Aggregation.isRelational name tokens (.within binders) = false)
    (shape : signature.shape = .positional ∨ signature.shape = .buildingBlock) :
    portions binders name tokens = [⟨binders, tokens, false⟩] := by
  simp only [portions, table, found, Bool.false_eq_true, ↓reduceIte, tablePortions, if_pos shape]

theorem portions_of_options {signature : Signature} {target : List Token}
    {options : List (List Token)} (found : Signature.lookup? name = some signature)
    (table : Aggregation.isRelational name tokens (.within binders) = false)
    (shape : signature.shape ≠ .positional ∧ signature.shape ≠ .buildingBlock)
    (cut : splitArguments tokens = .ok (target :: options)) :
    portions binders name tokens =
      (target :: keywordValues .axis options ++ keywordValues .index options).map
        (⟨binders, ·, false⟩) := by
  simp only [portions, table, found, Bool.false_eq_true, ↓reduceIte, tablePortions, cut, shape,
    or_self]

/-- A call with the keyword of a conditional is one to the function of that name. -/
theorem portions_if : portions binders "IF".toUpper tokens = [⟨binders, tokens, false⟩] := by
  have found : (Signature.lookup? "IF".toUpper).map Signature.shape = some .positional := by
    decide_cbv
  obtain ⟨signature, known, shape⟩ := Option.map_eq_some_iff.1 found
  refine portions_of_positional known ?_ (.inl shape)
  have other : "IF".toUpper ≠ "SUM" := by decide_cbv
  rw [Aggregation.isRelational, if_neg other]
  decide_cbv

theorem portions_of_isClause {clause : Aggregation.Clause} {reducer : Reducer}
    (known : Reducer.ofName? name = some reducer)
    (relational : Aggregation.isRelational name tokens (.within binders) = true)
    (is : Aggregation.IsClause tokens clause) :
    portions binders name tokens = clausePortions binders clause := by
  have least : name ≠ "MINBY" := by rintro rfl; cases known
  have greatest : name ≠ "MAXBY" := by rintro rfl; cases known
  have top : name ≠ "TOPN" := by rintro rfl; cases known
  simp only [portions, relational, ↓reduceIte, aggregationPortions, least, greatest, top, or_self,
    is.splitClause_eq name]

theorem keyedPortions_of_isKeyed {parts : List (List Token)} {clause : Aggregation.Clause}
    {key : Aggregation.Key} (paired : ∀ part ∈ parts, Paired part)
    (is : Aggregation.IsKeyed parts clause key) :
    keyedPortions binders name parts =
      clausePortions binders clause ++ [⟨.key key.parameter :: binders, key.body, false⟩] := by
  rw [keyedPortions, (Aggregation.splitKeyed_eq_ok_iff paired).2 is]

theorem portions_of_extreme {parts : List (List Token)}
    (known : name = "MINBY" ∨ name = "MAXBY") (is : IsArguments parts tokens) :
    portions binders name tokens = keyedPortions binders name parts := by
  have relational : Aggregation.isRelational name tokens (.within binders) = true := by
    rcases known with rfl | rfl <;> rfl
  simp only [portions, relational, ↓reduceIte, aggregationPortions, if_pos known,
    splitArguments_eq_ok.2 is]

theorem portions_of_top {count : List Token} {parts : List (List Token)}
    (is : IsArguments (count :: parts) tokens) :
    portions binders "TOPN" tokens =
      ⟨binders, count, false⟩ :: keyedPortions binders "TOPN" parts := by
  have relational : Aggregation.isRelational "TOPN" tokens (.within binders) = true := rfl
  have other : ¬("TOPN" = "MINBY" ∨ "TOPN" = "MAXBY") := by decide
  simp only [portions, relational, ↓reduceIte, aggregationPortions, if_neg other,
    splitArguments_eq_ok.2 is]

end Portions

namespace Aggregation

theorem IsKey.ne_nil {tokens : List Token} {key : Key} (is : IsKey tokens key) : tokens ≠ [] := by
  obtain ⟨-, parameter, arrow, rfl, -⟩ := is
  simp

/-- The tokens in front of a key are the source with a comma behind it, or nothing. -/
inductive IsSource : List Token → Clause → Prop where
  | own : IsSource [] ⟨[], none, none⟩
  | given {tokens : List Token} {comma : Token} {clause : Clause} (is : IsClause tokens clause)
      (plain : clause.projection = none) (argument : IsArgument tokens)
      (kind : comma.kind = .comma) : IsSource (tokens ++ [comma]) clause

theorem IsSource.keyed {before behind : List Token} {clause : Clause} {key : Key}
    (source : IsSource before clause) (is : IsKey behind key) (argument : IsArgument behind) :
    ∃ parts, IsArguments parts (before ++ behind) ∧ parts ≠ [] ∧ IsKeyed parts clause key := by
  cases source with
  | own =>
    refine ⟨[behind], ⟨.one, ?_⟩, by simp, .own is⟩
    simpa using argument
  | @given tokens comma clause clauseIs plain first kind =>
    refine ⟨[tokens, behind], ⟨?_, ?_⟩, by simp, .given clauseIs plain is⟩
    · rw [List.append_assoc]
      exact .more kind .one
    · simp [first, argument]

end Aggregation

/-- The references of the tree are those in the tokens, each resolved by the binders around it. The
tokens of a clause, of a source and of a keyword are told apart first. -/
def Reading.Resolved (levels : Nat) (binders : List Binder) (tokens : List Token) : Reading → Prop
  | .items exprs => Portion.paths levels ⟨binders, tokens, false⟩ = Expr.pathsAll exprs
  | .collection expr => Portion.paths levels ⟨binders, tokens, true⟩ = expr.paths
  | .clause mark expr => ∃ part, Marked mark part tokens ∧
      (∀ body ∈ part, IsPart body ∧ body ≠ []) ∧
      (part.toList.map (⟨binders, ·, false⟩)).flatMap (Portion.paths levels) = Expr.pathsOption expr
  | .source expr predicate => ∃ clause, Aggregation.IsSource tokens clause ∧
      (clausePortions binders clause).flatMap (Portion.paths levels) =
        expr.paths ++ Expr.pathsOption predicate
  | .key parameter expr => ∃ key : Aggregation.Key, key.parameter = parameter ∧
      Aggregation.IsKey tokens key ∧
      Portion.paths levels ⟨.key parameter :: binders, key.body, false⟩ = expr.paths
  | .keyword word expr => ∃ comma argument value, tokens = comma :: argument ∧
      comma.kind = .comma ∧ IsArgument argument ∧ Call.keyword? argument = some (word, value) ∧
      Portion.paths levels ⟨binders, value, false⟩ = expr.paths
  | .arguments name expr =>
    (portions binders name tokens).flatMap (Portion.paths levels) = expr.paths

theorem Reading.resolved_item {levels : Nat} {binders : List Binder} {tokens : List Token}
    {expr : Expr} : (Reading.items [expr]).Resolved levels binders tokens ↔
      Portion.paths levels ⟨binders, tokens, false⟩ = expr.paths := by
  simp [Reading.Resolved, Expr.pathsAll]

theorem paths_of_literal? {name : String} {expr : Expr}
    (known : Grammar.literal? name = some expr) : expr.paths = [] := by
  unfold Grammar.literal? at known
  split at known <;> cases known <;> rfl

theorem isLink_of_infixOperator? {kind : Kind} {op : BinaryOp}
    (known : infixOperator? kind = some op) : kind.isLink = false := by
  cases kind <;> first | rfl | cases known

section Steps

variable {levels : Nat} {binders : List Binder} {token opening closing : Token}
  {before behind tokens : List Token} {commas : Bool}

theorem paths_cons (unnamed : token.kind.name? = none) :
    Portion.paths levels ⟨binders, token :: tokens, false⟩ =
      Portion.paths levels ⟨binders, tokens, false⟩ := by
  rw [paths_expression, paths_expression, references_cons_of_unnamed unnamed]

theorem paths_append (closed : Closed commas before) (apart : token.kind.isLink = false) :
    Portion.paths levels ⟨binders, before ++ token :: behind, false⟩ =
      Portion.paths levels ⟨binders, before, false⟩ ++
        Portion.paths levels ⟨binders, behind, false⟩ := by
  simp only [paths_expression, references_append closed.callsClose apart, List.map_append]

theorem paths_nil : Portion.paths levels ⟨binders, [], false⟩ = [] := by
  rw [paths_expression, references]
  rfl

theorem paths_bracketed (closed : Closed commas tokens) (opens : opening.kind.name? = none)
    (closes : closing.kind.isLink = false) :
    Portion.paths levels ⟨binders, opening :: (tokens ++ [closing]), false⟩ =
      Portion.paths levels ⟨binders, tokens, false⟩ := by
  rw [paths_cons opens, paths_append closed closes, paths_nil, List.append_nil]

theorem paths_of_dotted {names : List String} (dotted : referenceNames? tokens = some names) :
    Portion.paths levels ⟨binders, tokens, true⟩ = [(Scope.within binders).resolve names] := by
  cases tokens with
  | nil => cases dotted
  | cons token tokens => simp [Portion.paths, Portion.uses, dotted, Use.path]

end Steps

/-- The path of a collection is all that its reference resolves to. -/
theorem Scope.path_of_collection {scope : Scope} {names : List String} {text : String}
    {collection : Collection} (resolved : scope.collection names text = .ok collection) :
    collection.path = scope.resolve names := by
  rcases collection_cases resolved with rfl | ⟨member, field, parts, rfl⟩
  · rfl
  · simp [Collection.path, ← parts]

/-- A target that is an expression and the options behind it are told apart. -/
theorem splitArguments_of_target {scope : Scope} {target tokens : List Token} {expr : Expr}
    {options : List (List Token)} (reads : Reads scope target (.items [expr]))
    (joined : Joined (target :: options) tokens) (each : ∀ option ∈ options, IsArgument option) :
    splitArguments tokens = .ok (target :: options) := by
  have first := (closed_of_reads reads).isArgument (ne_nil_of_reads reads)
  exact splitArguments_eq_ok.2 ⟨joined, List.forall_mem_cons.2 ⟨first, each⟩⟩

namespace Reading

section Rules

variable {scope : Scope} {levels : Nat} {binders : List Binder} {name : String}
  {signature : Signature} {head token opening closing : Token}
  {tokens before middle behind : List Token} {expr operand : Expr} {exprs : List Expr}

theorem resolved_prefixed (unnamed : token.kind.name? = none) (same : expr.paths = operand.paths)
    (inner : (items [operand]).Resolved levels binders tokens) :
    (items [expr]).Resolved levels binders (token :: tokens) := by
  rw [resolved_item] at inner ⊢
  rw [paths_cons unnamed, inner, same]

theorem resolved_bracketed (opens : opening.kind.name? = none)
    (closes : closing.kind.isLink = false) (inside : Reads scope tokens (items exprs))
    (same : expr.paths = Expr.pathsAll exprs)
    (inner : (items exprs).Resolved levels binders tokens) :
    (items [expr]).Resolved levels binders (opening :: tokens ++ [closing]) := by
  rw [resolved_item, List.cons_append, paths_bracketed (closed_of_reads inside) opens closes, same]
  exact inner

theorem resolved_binary {op : BinaryOp} {left right : Expr}
    (known : infixOperator? token.kind = some op) (first : Reads scope before (items [left]))
    (front : (items [left]).Resolved levels binders before)
    (back : (items [right]).Resolved levels binders behind) :
    (items [.binary op left right]).Resolved levels binders (before ++ token :: behind) := by
  rw [resolved_item] at front back ⊢
  rw [paths_append (closed_of_reads first) (isLink_of_infixOperator? known), front, back]
  rfl

/-- A call uses up one level. -/
theorem resolved_call (kind : calledName? head.kind = some name)
    (opens : opening.kind = .openParen) (closes : closing.kind = .closeParen)
    (inside : Reads scope tokens (arguments name.toUpper expr)) (enough : tokens.length < levels)
    (inner : ∀ levels, tokens.length ≤ levels →
      (arguments name.toUpper expr).Resolved levels binders tokens) :
    (items [expr]).Resolved levels binders (head :: opening :: (tokens ++ [closing])) := by
  rw [resolved_item]
  cases called : head.kind with
  | ident word =>
    obtain rfl : word = name := by simpa [called, calledName?] using kind
    obtain ⟨levels, rfl⟩ : ∃ fewer, levels = fewer + 1 := ⟨levels - 1, by omega⟩
    rw [paths_expression, references_call called opens closes (closed_of_reads inside),
      map_path_callUses]
    exact inner levels (by omega)
  | keyword word =>
    -- The keyword is passed over like an operator, and its arguments are one expression list.
    cases word <;> simp [called, calledName?] at kind
    subst kind
    have given := inner levels (by omega)
    rw [Resolved, portions_if] at given
    rw [paths_cons (by rw [called]; rfl), paths_bracketed (closed_of_reads inside)
      (by rw [opens]; rfl) (by rw [closes]; rfl)]
    simpa using given
  | _ => simp [called, calledName?] at kind

theorem resolved_keyword {comma word sign : Token} {spelled : String} {key : Call.ArgumentKey}
    (kind : comma.kind = .comma) (named : word.kind = .ident spelled)
    (known : Call.ArgumentKey.ofName? spelled = some key) (equals : sign.kind = .equal)
    (given : Reads scope tokens (items [expr]))
    (inner : (items [expr]).Resolved levels binders tokens) :
    (keyword key expr).Resolved levels binders (comma :: word :: sign :: tokens) := by
  refine ⟨comma, word :: sign :: tokens, tokens, rfl, kind, ?_, ?_, resolved_item.1 inner⟩
  · have value : Closed false tokens := closed_of_reads given
    exact Closed.isArgument (.token (by rw [named]; rfl) (.token (by rw [equals]; rfl) value))
      (by simp)
  · obtain ⟨_, _, _⟩ := word
    obtain ⟨_, _, _⟩ := sign
    cases named
    cases equals
    rw [Call.keyword?, known]
    rfl

section Options

variable {first second options : List Token} {axis index : Expr}
  (found : Signature.lookup? name = some signature)
  (target : Reads scope tokens (items [expr]))
  (array : (items [expr]).Resolved levels binders tokens)
include found target array

theorem resolved_overMember {comma : Token} {member var : String}
    (table : Aggregation.isRelational name (tokens ++ [comma, token]) (.within binders) = false)
    (shape : signature.shape = .collectionField) (kind : comma.kind = .comma)
    (named : token.kind = .ident member) :
    (arguments name (.overMember signature expr member var)).Resolved levels binders
      (tokens ++ [comma, token]) := by
  have argument : IsArgument [token] :=
    Closed.isArgument (.one (by rw [named]; rfl)) (by simp)
  have cut := splitArguments_of_target target (.more kind .one) (by simpa using argument)
  rw [Resolved, portions_of_options found table (by simp [shape]) cut]
  simpa [keywordValues, Call.keyword?, Expr.paths] using resolved_item.1 array

theorem resolved_wholeArray
    (table : Aggregation.isRelational name tokens (.within binders) = false)
    (shape : signature.shape = .axisKeyword) :
    (arguments name (.alongAxis signature expr none)).Resolved levels binders tokens := by
  have cut := splitArguments_of_target target .one (by simp)
  rw [Resolved, portions_of_options found table (by simp [shape]) cut]
  simpa [keywordValues, Expr.paths, Expr.pathsOption] using resolved_item.1 array

theorem resolved_alongAxis
    (table : Aggregation.isRelational name (tokens ++ first) (.within binders) = false)
    (shape : signature.shape = .axisKeyword)
    (along : (keyword .axis axis).Resolved levels binders first) :
    (arguments name (.alongAxis signature expr (some axis))).Resolved levels binders
      (tokens ++ first) := by
  obtain ⟨comma, argument, value, rfl, kind, part, isAxis, along⟩ := along
  have cut := splitArguments_of_target target (.more kind .one) (by simpa using part)
  rw [Resolved, portions_of_options found table (by simp [shape]) cut]
  simp [keywordValues, isAxis, Expr.paths, Expr.pathsOption, resolved_item.1 array, along]

/-- The options are told apart in the order in which they stand, and then found by their keys. -/
theorem resolved_slice
    (table : Aggregation.isRelational name (tokens ++ options) (.within binders) = false)
    (shape : signature.shape = .sliceKeywords)
    (along : (keyword .axis axis).Resolved levels binders first)
    (place : (keyword .index index).Resolved levels binders second)
    (order : options = first ++ second ∨ options = second ++ first) :
    (arguments name (.slice signature expr axis index)).Resolved levels binders
      (tokens ++ options) := by
  obtain ⟨comma, argument, value, rfl, kind, part, isAxis, along⟩ := along
  obtain ⟨mark, other, chosen, rfl, separates, part', isIndex, place⟩ := place
  rcases order with rfl | rfl
  · have cut : splitArguments (tokens ++ comma :: (argument ++ mark :: other)) =
        .ok [tokens, argument, other] :=
      splitArguments_of_target target (.more kind (.more separates .one)) (by simp [part, part'])
    rw [Resolved, portions_of_options found table (by simp [shape]) cut]
    simp [keywordValues, isAxis, isIndex, Expr.paths, resolved_item.1 array, along, place]
  · have cut : splitArguments (tokens ++ mark :: (other ++ comma :: argument)) =
        .ok [tokens, other, argument] :=
      splitArguments_of_target target (.more separates (.more kind .one)) (by simp [part, part'])
    rw [Resolved, portions_of_options found table (by simp [shape]) cut]
    simp [keywordValues, isAxis, isIndex, Expr.paths, resolved_item.1 array, along, place]

end Options

section Clauses

variable {collection : Expr} {predicate projection : Option Expr}

theorem resolved_reduce {reducer : Reducer} {var : String}
    (known : Reducer.ofName? name = some reducer)
    (source : Reads scope before (.collection collection))
    (relational :
      Aggregation.isRelational name (before ++ middle ++ behind) (.within binders) = true)
    (collected : (Reading.collection collection).Resolved levels binders before)
    (test : (clause .whereWord predicate).Resolved levels (.clause :: binders) middle)
    (value : (clause .fatArrow projection).Resolved levels (.clause :: binders) behind) :
    (arguments name (.reduce reducer var collection predicate projection)).Resolved levels binders
      (before ++ middle ++ behind) := by
  obtain ⟨tested, isWhere, tests, predicates⟩ := test
  obtain ⟨valued, isArrow, values, projections⟩ := value
  have is : Aggregation.IsClause (before ++ middle ++ behind) ⟨before, tested, valued⟩ :=
    ⟨⟨middle, behind, rfl, isWhere, isArrow⟩, isPart_of_reads source rfl, tests, values⟩
  rw [Resolved, portions_of_isClause known relational is, clausePortions, List.flatMap_cons,
    collected, List.map_append, List.flatMap_append, predicates, projections, ← List.append_assoc]
  rfl

theorem resolved_givenSource {inner : Scope} {comma : Token} (kind : comma.kind = .comma)
    (source : Reads scope before (.collection collection))
    (clause : Reads inner behind (.clause .whereWord predicate)) (nonempty : before ++ behind ≠ [])
    (collected : (Reading.collection collection).Resolved levels binders before)
    (test : (Reading.clause .whereWord predicate).Resolved levels (.clause :: binders) behind) :
    (Reading.source collection predicate).Resolved levels binders
      (before ++ behind ++ [comma]) := by
  obtain ⟨tested, isWhere, tests, predicates⟩ := test
  have is : Aggregation.IsClause (before ++ behind) ⟨before, tested, none⟩ :=
    ⟨⟨behind, [], by simp, isWhere, rfl⟩, isPart_of_reads source rfl, tests, by simp⟩
  have front : Closed false before := closed_of_reads source
  have back : Closed false behind := closed_of_reads clause
  refine ⟨_, .given is rfl ((front.append back).isArgument nonempty) kind, ?_⟩
  rw [clausePortions, List.flatMap_cons, collected, List.map_append, List.flatMap_append,
    predicates]
  simp

/-- A source and a key are the arguments of an aggregation, or those behind the count. -/
theorem exists_keyed {parameter : String} {body : Expr} (name : String)
    (chosen : Reads scope behind (.key parameter body))
    (source : (Reading.source collection predicate).Resolved levels binders before)
    (key : (Reading.key parameter body).Resolved levels binders behind) :
    ∃ part parts, IsArguments (part :: parts) (before ++ behind) ∧
      (keyedPortions binders name (part :: parts)).flatMap (Portion.paths levels) =
        collection.paths ++ Expr.pathsOption predicate ++ body.paths := by
  obtain ⟨clause, isSource, collected⟩ := source
  obtain ⟨key, rfl, isKey, keyed⟩ := key
  obtain ⟨parts, arguments, nonempty, is⟩ :=
    isSource.keyed isKey ((closed_of_reads chosen).isArgument isKey.ne_nil)
  obtain ⟨part, parts, rfl⟩ := List.exists_cons_of_ne_nil nonempty
  refine ⟨part, parts, arguments, ?_⟩
  rw [keyedPortions_of_isKeyed arguments.paired is, List.flatMap_append, collected,
    List.flatMap_singleton, keyed]

end Clauses

end Rules

end Reading

/-- What the rules read refers to what the references in the tokens stand for. -/
theorem resolved_of_reads {scope : Scope} {tokens : List Token} {reading : Reading}
    (reads : Reads scope tokens reading) {levels : Nat} {binders : List Binder}
    (around : scope = .within binders) (enough : tokens.length ≤ levels) :
    reading.Resolved levels binders tokens := by
  -- The binders follow the scope: a clause or a key is read with one more of them. A call uses up
  -- one level, and its arguments are shorter by more than that.
  induction reads generalizing levels binders with
  | number kind | text kind =>
    rw [Reading.resolved_item, paths_cons (by rw [kind]; rfl), paths_nil]
    rfl
  | literal kind known =>
    rw [Reading.resolved_item, paths_of_literal? known, paths_expression,
      references_cons_of_named (by rw [kind]; rfl) rfl, if_pos (by rw [known]; rfl), references]
    rfl
  | reference dotted resolved plain =>
    subst around
    rw [Reading.resolved_item, paths_expression, references_of_dotted dotted plain,
      Scope.eq_resolve_of_value resolved]
    rfl
  | group opens closes inside ih =>
    simp only [List.cons_append, List.length_cons, List.length_append] at enough
    exact Reading.resolved_bracketed (by rw [opens]; rfl) (by rw [closes]; rfl) inside
      (by simp [Expr.pathsAll]) (ih around (by omega))
  | tuple opens closes inside several ih =>
    simp only [List.cons_append, List.length_cons, List.length_append] at enough
    exact Reading.resolved_bracketed (by rw [opens]; rfl) (by rw [closes]; rfl) inside rfl
      (ih around (by omega))
  | list opens closes inside ih =>
    simp only [List.cons_append, List.length_cons, List.length_append] at enough
    exact Reading.resolved_bracketed (by rw [opens]; rfl) (by rw [closes]; rfl) inside rfl
      (ih around (by omega))
  | nothing => exact paths_nil
  | more first kind others ihFirst ihOthers =>
    simp only [List.length_append, List.length_cons] at enough
    have front := Reading.resolved_item.1 (@ihFirst levels binders around (by omega))
    have back := @ihOthers levels binders around (by omega)
    rw [Reading.Resolved] at back ⊢
    rw [paths_append (closed_of_reads first) (by rw [kind]; rfl), front, back]
    rfl
  | not kind operand ih | negate kind operand ih | positive kind operand ih =>
    exact Reading.resolved_prefixed (by rw [kind]; rfl) rfl
      (ih around (Nat.le_of_succ_le enough))
  | binary kind first second ihFirst ihSecond =>
    simp only [List.length_append, List.length_cons] at enough
    exact Reading.resolved_binary kind first (ihFirst around (by omega))
      (ihSecond around (by omega))
  | conditional isIf opens closes isThen isElse test first second ihTest ihFirst ihSecond =>
    simp only [List.length_append, List.length_cons] at enough
    rw [Reading.resolved_item, paths_cons (by rw [isIf]; rfl), paths_cons (by rw [opens]; rfl),
      paths_append (closed_of_reads test) (by rw [closes]; rfl), paths_cons (by rw [isThen]; rfl),
      paths_append (closed_of_reads first) (by rw [isElse]; rfl),
      Reading.resolved_item.1 (ihTest around (by omega)),
      Reading.resolved_item.1 (ihFirst around (by omega)),
      Reading.resolved_item.1 (ihSecond around (by omega)), ← List.append_assoc]
    rfl
  | call kind opens closes inside ih =>
    simp only [List.length_cons, List.length_append] at enough
    exact Reading.resolved_call kind opens closes inside (by omega) fun _ => ih around
  | positional found table shape arity parts ih =>
    subst around
    rw [Reading.Resolved, portions_of_positional found table shape, List.flatMap_singleton]
    exact ih rfl enough
  | overMember found table shape collection kind named ih =>
    subst around
    simp only [List.length_append] at enough
    exact Reading.resolved_overMember found collection (ih rfl (by omega)) table shape kind named
  | keyword kind named known equals given ih =>
    simp only [List.length_cons] at enough
    exact Reading.resolved_keyword kind named known equals given (ih around (by omega))
  | wholeArray found table shape target ih =>
    subst around
    exact Reading.resolved_wholeArray found target (ih rfl enough) table shape
  | alongAxis found table shape target given ihTarget ihGiven =>
    subst around
    simp only [List.length_append] at enough
    exact Reading.resolved_alongAxis found target (ihTarget rfl (by omega)) table shape
      (ihGiven rfl (by omega))
  | @slice scope name signature tokens first second options expr axis index found table shape
      inRange target along place order ihTarget ihAlong ihPlace =>
    subst around
    have length : options.length = first.length + second.length := by
      rcases order with rfl | rfl <;> simp [Nat.add_comm]
    simp only [List.length_append] at enough
    exact Reading.resolved_slice found target (ihTarget rfl (by omega)) table shape
      (ihAlong rfl (by omega)) (ihPlace rfl (by omega)) order
  | receiver =>
    subst around
    rfl
  | named dotted resolved =>
    subst around
    rw [Reading.Resolved, paths_of_dotted dotted, ← Scope.path_of_collection resolved]
    rfl
  | @computed scope tokens expr given other ih =>
    have same : Portion.paths levels ⟨binders, tokens, true⟩ =
        Portion.paths levels ⟨binders, tokens, false⟩ := by
      cases tokens with
      | nil => exact absurd rfl (ne_nil_of_reads given)
      | cons token tokens => simp [Portion.paths, Portion.uses, other]
    rw [Reading.Resolved, same]
    exact Reading.resolved_item.1 (ih around enough)
  | absent => exact ⟨none, rfl, by simp, rfl⟩
  | @present scope mark token tokens expr kind given ih =>
    refine ⟨some tokens, ⟨token, rfl, kind⟩, ?_, ?_⟩
    · simpa using ⟨isPart_of_reads given rfl, ne_nil_of_reads given⟩
    · simpa [Expr.pathsOption] using Reading.resolved_item.1 (ih around (Nat.le_of_succ_le enough))
  | reduce known source test value relational ihSource ihTest ihValue =>
    subst around
    simp only [List.length_append] at enough
    exact Reading.resolved_reduce known source relational (ihSource rfl (by omega))
      (ihTest rfl (by omega)) (ihValue rfl (by omega))
  | ownSource =>
    subst around
    exact ⟨⟨[], none, none⟩, .own, rfl⟩
  | givenSource source test kind nonempty ihSource ihTest =>
    subst around
    simp only [List.length_append] at enough
    exact Reading.resolved_givenSource kind source test nonempty (ihSource rfl (by omega))
      (ihTest rfl (by omega))
  | @key scope parameter arrow tokens name expr named kind body ih =>
    subst around
    simp only [List.length_cons] at enough
    refine ⟨⟨name, tokens⟩, rfl, ⟨ne_nil_of_reads body, parameter, arrow, rfl, named, kind⟩, ?_⟩
    exact Reading.resolved_item.1 (ih rfl (by omega))
  | @extreme scope name parameter which before behind collection body predicate known source chosen
      ihSource ihChosen =>
    subst around
    simp only [List.length_append] at enough
    obtain ⟨part, parts, arguments, keyed⟩ := Reading.exists_keyed name chosen
      (@ihSource levels binders rfl (by omega)) (ihChosen rfl (by omega))
    rw [Reading.Resolved, portions_of_extreme (known.imp And.left And.left) arguments, keyed]
    rfl
  | @top scope parameter comma first before behind count collection body predicate number kind
      source chosen ihNumber ihSource ihChosen =>
    subst around
    simp only [List.length_append, List.length_cons] at enough
    obtain ⟨part, parts, arguments, keyed⟩ := Reading.exists_keyed "TOPN" chosen
      (@ihSource levels binders rfl (by omega)) (ihChosen rfl (by omega))
    have counted := Reading.resolved_item.1 (@ihNumber levels binders rfl (by omega))
    have whole : IsArguments (first :: part :: parts) (first ++ comma :: (before ++ behind)) := by
      refine ⟨.more kind arguments.joined, List.forall_mem_cons.2 ⟨?_, arguments.each⟩⟩
      exact (closed_of_reads number).isArgument (ne_nil_of_reads number)
    rw [Reading.Resolved, portions_of_top whole, List.flatMap_cons, keyed, counted]
    rfl

namespace Use

variable {use : Use} {parameter : String} {rest : List String}

theorem path_of_nearest (names : use.names = parameter :: rest) (other : parameter ≠ "this")
    (nearest : use.binders.head? = some (.key parameter)) :
    use.path = ⟨.parameter parameter, rest⟩ := by
  obtain ⟨binders, _⟩ := use
  obtain ⟨around, rfl⟩ := List.head?_eq_some_iff.1 nearest
  subst names
  simp [path, Scope.within, Scope.resolve, Scope.lambda, Scope.binds, other]

theorem path_of_not_nearest (names : use.names = parameter :: rest) (other : parameter ≠ "this")
    (farther : use.binders.head? ≠ some (.key parameter)) :
    use.path = ⟨(Scope.within use.binders).receiver, parameter :: rest⟩ := by
  obtain ⟨binders, _⟩ := use
  subst names
  have free : (Scope.within binders).binds parameter = false := by
    rcases binders with _ | ⟨_ | nearest, around⟩
    · rfl
    · rfl
    · simpa [Scope.within, Scope.lambda, Scope.binds] using farther
  simp [path, Scope.resolve, free, other]

theorem path_eq_parameter_iff (names : use.names = parameter :: rest) (other : parameter ≠ "this") :
    use.path = ⟨.parameter parameter, rest⟩ ↔ use.binders.head? = some (.key parameter) := by
  refine ⟨fun same => ?_, path_of_nearest names other⟩
  by_contra farther
  rw [path_of_not_nearest names other farther] at same
  simp at same

end Use

namespace Formula

theorem paths_of_parse {formula : String} {expr : Expr}
    (accepted : (parse formula).result = .ok expr) :
    ∃ tokens, tokenize formula = .ok tokens ∧ expr.paths = (uses [] tokens).map Use.path := by
  obtain ⟨tokens, lexed, ⟨rfl, rfl⟩ | reads⟩ := reads_of_parse accepted
  · refine ⟨[], lexed, ?_⟩
    rw [uses, usesAt, references]
    rfl
  · have resolved := @resolved_of_reads _ _ _ reads tokens.length [] rfl (Nat.le_refl _)
    exact ⟨tokens, lexed, (Reading.resolved_item.1 resolved).symm⟩

/-- The tree of an accepted formula refers to what the references in its tokens stand for, in their
order. A reference that starts with a name is rooted at the parameter of that name if and only if
the nearest binder around it is a key with this parameter; otherwise the name is a member of what
the nearest binder binds, also if a key further out has it for its parameter. -/
theorem parse_references {formula : String} {expr : Expr}
    (accepted : (parse formula).result = .ok expr) :
    ∃ tokens, tokenize formula = .ok tokens ∧ (compile formula).result = .ok expr.fragment ∧
      expr.paths = (uses [] tokens).map Use.path ∧
      ∀ use ∈ uses [] tokens, ∀ parameter rest, use.names = parameter :: rest →
        parameter ≠ "this" →
        (use.path = ⟨.parameter parameter, rest⟩ ↔ use.binders.head? = some (.key parameter)) ∧
        (use.binders.head? ≠ some (.key parameter) →
          use.path = ⟨(Scope.within use.binders).receiver, parameter :: rest⟩) := by
  have compiled : (compile formula).result = .ok expr.fragment :=
    compile_eq_ok.2 ⟨expr, accepted, rfl⟩
  obtain ⟨tokens, lexed, same⟩ := paths_of_parse accepted
  refine ⟨tokens, lexed, compiled, same, ?_⟩
  intro use _ parameter rest names other
  exact ⟨Use.path_eq_parameter_iff names other, Use.path_of_not_nearest names other⟩

/-- Under the key the parameter is the element; in the clause inside the key it is a member of the
clause's own element. -/
theorem parse_references_clause :
    ∃ expr, (parse "MAXBY(teams, t => COUNT(t.roster WHERE x = t.y))").result = .ok expr ∧
      expr.render =
        "max(self.teams, key=lambda t: sum(1 for item1 in t.roster if (item1.x == item1.t.y)))" ∧
      expr.paths = [⟨.entity, ["teams"]⟩, ⟨.parameter "t", ["roster"]⟩,
        ⟨.element "item1", ["x"]⟩, ⟨.element "item1", ["t", "y"]⟩] := by
  have read : (parse "MAXBY(teams, t => COUNT(t.roster WHERE x = t.y))").result.toOption.any
      (fun expr => expr.render =
        "max(self.teams, key=lambda t: sum(1 for item1 in t.roster if (item1.x == item1.t.y)))") =
      true := by decide_cbv
  have found : (tokenize "MAXBY(teams, t => COUNT(t.roster WHERE x = t.y))").toOption.map
      (uses []) = some [⟨[], ["teams"]⟩, ⟨[.key "t"], ["t", "roster"]⟩,
        ⟨[.clause, .key "t"], ["x"]⟩, ⟨[.clause, .key "t"], ["t", "y"]⟩] := by decide_cbv
  simp only [Option.any_eq_true, decide_eq_true_eq] at read
  obtain ⟨expr, accepted, code⟩ := read
  have accepted := eq_ok_of_toOption accepted
  obtain ⟨tokens, lexed, -, same, -⟩ := parse_references accepted
  rw [lexed, Except.toOption, Option.map_some, Option.some.injEq] at found
  refine ⟨expr, accepted, code, ?_⟩
  rw [same, found]
  decide_cbv

end Formula

end Formulary
