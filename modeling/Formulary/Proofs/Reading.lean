import Formulary.Proofs.Arguments
import Formulary.Proofs.Readers

set_option autoImplicit false

/- The formula language as a relation between tokens and trees, with a rule for every construct. The
rules leave out precedence and nesting: `reads_of_parse` says that an accepted formula is built by
them, not that the rules build accepted formulas only. What holds of every accepted formula can
thus be proved by one induction. -/
namespace Formulary

/-- What tokens are read as. -/
inductive Reading where
  /-- Expressions with commas between them. -/
  | items (exprs : List Expr)
  /-- What an aggregation runs over. -/
  | collection (expr : Expr)
  /-- A mark with an expression behind it, or nothing at all. -/
  | clause (mark : Mark) (expr : Option Expr)
  /-- What stands in front of a key, with the comma behind it, or nothing at all. -/
  | source (collection : Expr) (predicate : Option Expr)
  /-- A key with its parameter. -/
  | key (parameter : String) (expr : Expr)
  /-- An argument with its keyword and the comma in front of it. -/
  | keyword (key : Call.ArgumentKey) (expr : Expr)
  /-- What stands between the brackets of a call. -/
  | arguments (name : String) (expr : Expr)

/-- The operator that a token writes between two operands. -/
def infixOperator? (kind : Kind) : Option BinaryOp :=
  match kind with
  | .keyword .orWord => some .or
  | .keyword .andWord => some .and
  | .caret => some .power
  | kind => Grammar.comparisonOperator? kind <|> Grammar.sumOperator? kind <|>
      Grammar.productOperator? kind

/-- The name that a token in front of an open bracket calls. -/
def calledName? : Kind → Option String
  | .ident name => some name
  | .keyword .ifWord => some "IF"
  | _ => none

/-- The tokens are read as this in the scope. -/
inductive Reads : Scope → List Token → Reading → Prop where
  | number {scope : Scope} {token : Token} {digits : String} (kind : token.kind = .number digits) :
      Reads scope [token] (.items [.number digits])
  | text {scope : Scope} {token : Token} {literal : String} (kind : token.kind = .string literal) :
      Reads scope [token] (.items [.text literal])
  | literal {scope : Scope} {token : Token} {name : String} {expr : Expr}
      (kind : token.kind = .ident name) (known : Grammar.literal? name = some expr) :
      Reads scope [token] (.items [expr])
  | reference {scope : Scope} {tokens : List Token} {names : List String} {path : Path}
      {text : String} (dotted : referenceNames? tokens = some names)
      (resolved : scope.value names text = .ok path)
      (plain : ∀ name ∈ names.head?, Grammar.literal? name = none) :
      Reads scope tokens (.items [.reference (.whole path)])
  | group {scope : Scope} {opening closing : Token} {tokens : List Token} {expr : Expr}
      (opens : opening.kind = .openParen) (closes : closing.kind = .closeParen)
      (inside : Reads scope tokens (.items [expr])) :
      Reads scope (opening :: tokens ++ [closing]) (.items [expr])
  | tuple {scope : Scope} {opening closing : Token} {tokens : List Token} {exprs : List Expr}
      (opens : opening.kind = .openParen) (closes : closing.kind = .closeParen)
      (inside : Reads scope tokens (.items exprs)) (several : 2 ≤ exprs.length) :
      Reads scope (opening :: tokens ++ [closing]) (.items [.tuple exprs])
  | list {scope : Scope} {opening closing : Token} {tokens : List Token} {exprs : List Expr}
      (opens : opening.kind = .openBracket) (closes : closing.kind = .closeBracket)
      (inside : Reads scope tokens (.items exprs)) :
      Reads scope (opening :: tokens ++ [closing]) (.items [.list exprs])
  | nothing {scope : Scope} : Reads scope [] (.items [])
  | more {scope : Scope} {comma : Token} {tokens rest : List Token} {expr next : Expr}
      {exprs : List Expr} (first : Reads scope tokens (.items [expr]))
      (kind : comma.kind = .comma) (others : Reads scope rest (.items (next :: exprs))) :
      Reads scope (tokens ++ comma :: rest) (.items (expr :: next :: exprs))
  | not {scope : Scope} {token : Token} {tokens : List Token} {expr : Expr}
      (kind : token.kind = .keyword .notWord) (operand : Reads scope tokens (.items [expr])) :
      Reads scope (token :: tokens) (.items [.not expr])
  | negate {scope : Scope} {token : Token} {tokens : List Token} {expr : Expr}
      (kind : token.kind = .minus) (operand : Reads scope tokens (.items [expr])) :
      Reads scope (token :: tokens) (.items [.negate expr])
  | positive {scope : Scope} {token : Token} {tokens : List Token} {expr : Expr}
      (kind : token.kind = .plus) (operand : Reads scope tokens (.items [expr])) :
      Reads scope (token :: tokens) (.items [expr])
  | binary {scope : Scope} {token : Token} {before behind : List Token} {op : BinaryOp}
      {left right : Expr} (kind : infixOperator? token.kind = some op)
      (first : Reads scope before (.items [left])) (second : Reads scope behind (.items [right])) :
      Reads scope (before ++ token :: behind) (.items [.binary op left right])
  | conditional {scope : Scope} {ifToken opening closing thenToken elseToken : Token}
      {inside before behind : List Token} {condition yes no : Expr}
      (isIf : ifToken.kind = .keyword .ifWord) (opens : opening.kind = .openParen)
      (closes : closing.kind = .closeParen) (isThen : thenToken.kind = .keyword .thenWord)
      (isElse : elseToken.kind = .keyword .elseWord)
      (test : Reads scope inside (.items [condition])) (first : Reads scope before (.items [yes]))
      (second : Reads scope behind (.items [no])) :
      Reads scope
        (ifToken :: opening :: (inside ++ closing :: thenToken :: (before ++ elseToken :: behind)))
        (.items [.conditional condition yes no])
  | call {scope : Scope} {head opening closing : Token} {tokens : List Token} {name : String}
      {expr : Expr} (kind : calledName? head.kind = some name) (opens : opening.kind = .openParen)
      (closes : closing.kind = .closeParen)
      (inside : Reads scope tokens (.arguments name.toUpper expr)) :
      Reads scope (head :: opening :: (tokens ++ [closing])) (.items [expr])
  | positional {scope : Scope} {name : String} {signature : Signature} {tokens : List Token}
      {exprs : List Expr} (found : Signature.lookup? name = some signature)
      (table : Aggregation.isRelational name tokens scope = false)
      (shape : signature.shape = .positional ∨ signature.shape = .buildingBlock)
      (arity : signature.arity.accepts exprs.length = true)
      (parts : Reads scope tokens (.items exprs)) :
      Reads scope tokens (.arguments name (.call signature exprs))
  | overMember {scope : Scope} {name member : String} {signature : Signature} {tokens : List Token}
      {comma token : Token} {expr : Expr} (found : Signature.lookup? name = some signature)
      (table : Aggregation.isRelational name (tokens ++ [comma, token]) scope = false)
      (shape : signature.shape = .collectionField) (collection : Reads scope tokens (.items [expr]))
      (kind : comma.kind = .comma) (named : token.kind = .ident member) :
      Reads scope (tokens ++ [comma, token])
        (.arguments name (.overMember signature expr member scope.nextVar))
  | keyword {scope : Scope} {comma word sign : Token} {value : List Token} {spelled : String}
      {key : Call.ArgumentKey} {expr : Expr} (kind : comma.kind = .comma)
      (named : word.kind = .ident spelled) (known : Call.ArgumentKey.ofName? spelled = some key)
      (equals : sign.kind = .equal) (given : Reads scope value (.items [expr])) :
      Reads scope (comma :: word :: sign :: value) (.keyword key expr)
  | wholeArray {scope : Scope} {name : String} {signature : Signature} {tokens : List Token}
      {expr : Expr} (found : Signature.lookup? name = some signature)
      (table : Aggregation.isRelational name tokens scope = false)
      (shape : signature.shape = .axisKeyword) (target : Reads scope tokens (.items [expr])) :
      Reads scope tokens (.arguments name (.alongAxis signature expr none))
  | alongAxis {scope : Scope} {name : String} {signature : Signature} {tokens value : List Token}
      {expr axis : Expr} (found : Signature.lookup? name = some signature)
      (table : Aggregation.isRelational name (tokens ++ value) scope = false)
      (shape : signature.shape = .axisKeyword) (target : Reads scope tokens (.items [expr]))
      (given : Reads scope value (.keyword .axis axis)) :
      Reads scope (tokens ++ value) (.arguments name (.alongAxis signature expr (some axis)))
  | slice {scope : Scope} {name : String} {signature : Signature}
      {tokens first second options : List Token} {expr axis index : Expr}
      (found : Signature.lookup? name = some signature)
      (table : Aggregation.isRelational name (tokens ++ options) scope = false)
      (shape : signature.shape = .sliceKeywords)
      (inRange : Call.checkAxis signature axis = .ok ())
      (target : Reads scope tokens (.items [expr]))
      (along : Reads scope first (.keyword .axis axis))
      (place : Reads scope second (.keyword .index index))
      (order : options = first ++ second ∨ options = second ++ first) :
      Reads scope (tokens ++ options) (.arguments name (.slice signature expr axis index))
  | receiver {scope : Scope} :
      Reads scope [] (.collection (.reference (.whole ⟨scope.receiver, []⟩)))
  | named {scope : Scope} {tokens : List Token} {names : List String} {collection : Collection}
      {text : String} (dotted : referenceNames? tokens = some names)
      (resolved : scope.collection names text = .ok collection) :
      Reads scope tokens (.collection (.reference collection))
  | computed {scope : Scope} {tokens : List Token} {expr : Expr}
      (given : Reads scope tokens (.items [expr])) (other : referenceNames? tokens = none) :
      Reads scope tokens (.collection expr)
  | absent {scope : Scope} {mark : Mark} : Reads scope [] (.clause mark none)
  | present {scope : Scope} {mark : Mark} {token : Token} {tokens : List Token} {expr : Expr}
      (kind : token.kind = mark.kind) (given : Reads scope tokens (.items [expr])) :
      Reads scope (token :: tokens) (.clause mark (some expr))
  | reduce {scope : Scope} {name : String} {reducer : Reducer} {before middle behind : List Token}
      {collection : Expr} {predicate projection : Option Expr}
      (known : Reducer.ofName? name = some reducer)
      (source : Reads scope before (.collection collection))
      (test : Reads (scope.element scope.nextVar) middle
        (.clause .whereWord predicate))
      (value : Reads (scope.element scope.nextVar) behind (.clause .fatArrow projection))
      (relational : Aggregation.isRelational name (before ++ middle ++ behind) scope = true) :
      Reads scope (before ++ middle ++ behind)
        (.arguments name (.reduce reducer scope.nextVar collection predicate projection))
  | ownSource {scope : Scope} :
      Reads scope [] (.source (.reference (.whole ⟨scope.receiver, []⟩)) none)
  | givenSource {scope : Scope} {comma : Token} {before behind : List Token} {collection : Expr}
      {predicate : Option Expr} (source : Reads scope before (.collection collection))
      (test : Reads (scope.element scope.nextVar) behind
        (.clause .whereWord predicate))
      (kind : comma.kind = .comma) (nonempty : before ++ behind ≠ []) :
      Reads scope (before ++ behind ++ [comma]) (.source collection predicate)
  | key {scope : Scope} {parameter arrow : Token} {tokens : List Token} {name : String}
      {expr : Expr} (named : parameter.kind = .ident name) (kind : arrow.kind = .fatArrow)
      (body : Reads (scope.lambda name) tokens (.items [expr])) :
      Reads scope (parameter :: arrow :: tokens) (.key name expr)
  | extreme {scope : Scope} {name parameter : String} {which : Extreme} {before behind : List Token}
      {collection body : Expr} {predicate : Option Expr}
      (known : (name = "MINBY" ∧ which = .least) ∨ (name = "MAXBY" ∧ which = .greatest))
      (source : Reads scope before (.source collection predicate))
      (chosen : Reads scope behind (.key parameter body)) :
      Reads scope (before ++ behind)
        (.arguments name (.extreme which scope.nextVar collection predicate parameter body))
  | top {scope : Scope} {parameter : String} {comma : Token} {first before behind : List Token}
      {count collection body : Expr} {predicate : Option Expr}
      (number : Reads scope first (.items [count])) (kind : comma.kind = .comma)
      (source : Reads scope before (.source collection predicate))
      (chosen : Reads scope behind (.key parameter body)) :
      Reads scope (first ++ comma :: (before ++ behind))
        (.arguments "TOPN" (.top count scope.nextVar collection predicate parameter body))

/-- What all the tokens of two options have in common. -/
theorem forall_options {holds : Token → Prop} {first second options : List Token}
    (order : options = first ++ second ∨ options = second ++ first)
    (each : ∀ token ∈ options, holds token) :
    (∀ token ∈ first, holds token) ∧ ∀ token ∈ second, holds token := by
  rcases order with rfl | rfl
  · exact List.forall_mem_append.1 each
  · exact (List.forall_mem_append.1 each).symm

/-- A reference is made of names and of the marks between them, and its names are all it gives. -/
theorem referenceNames?_tokens {tokens : List Token} {names : List String}
    (dotted : referenceNames? tokens = some names) :
    (∀ token ∈ tokens, (∃ name, token.kind = .ident name) ∨ token.kind.isMemberMark = true) ∧
      ∀ name ∈ names, ∃ token ∈ tokens, token.kind = .ident name := by
  have isIdent {token : Token} {name : String} (named : token.kind.name? = some name) :
      token.kind = .ident name := by
    cases kind : token.kind <;> rw [kind] at named <;> cases named
    rfl
  fun_induction referenceNames? tokens generalizing names with
  | case1 => cases dotted
  | case2 token =>
    obtain ⟨name, named, rfl⟩ := Option.map_eq_some_iff.1 dotted
    simp [isIdent named]
  | case3 token mark rest isMark ih =>
    obtain ⟨name, named, dotted⟩ := Option.bind_eq_some_iff.1 dotted
    obtain ⟨more, others, dotted⟩ := Option.bind_eq_some_iff.1 dotted
    cases dotted
    obtain ⟨kinds, spelled⟩ := ih others
    refine ⟨?_, ?_⟩
    · exact List.forall_mem_cons.2 ⟨.inl ⟨name, isIdent named⟩,
        List.forall_mem_cons.2 ⟨.inr isMark, kinds⟩⟩
    · intro spelling member
      rcases List.mem_cons.1 member with rfl | later
      · exact ⟨token, by simp, isIdent named⟩
      · obtain ⟨token, inside, kind⟩ := spelled spelling later
        exact ⟨token, by simp [inside], kind⟩
  | case4 => cases dotted

/-- A reference resolves to its own names and the receiver's. -/
theorem Scope.resolve_forall {holds : String → Prop} {scope : Scope} {names : List String}
    (entity : holds "self") (receiver : holds scope.receiverText)
    (words : ∀ name ∈ names, holds name) :
    holds (scope.resolve names).receiver.text ∧
      ∀ member ∈ (scope.resolve names).members, holds member := by
  unfold resolve
  split
  · exact ⟨receiver, by simp⟩
  · rename_i head rest
    have later : ∀ member ∈ rest, holds member := fun member here => words member (by simp [here])
    split
    · exact ⟨entity, later⟩
    · split
      · exact ⟨words head (by simp), later⟩
      · exact ⟨receiver, words⟩

/-- A reference that is a value is all that it resolves to. -/
theorem Scope.eq_resolve_of_value {scope : Scope} {names : List String} {text : String}
    {path : Path} (resolved : scope.value names text = .ok path) : path = scope.resolve names := by
  unfold Scope.value at resolved
  simp only at resolved
  split at resolved <;> cases resolved
  rfl

/-- A reference that is a collection is all that it resolves to, or one field of the elements of a
member. -/
theorem Scope.collection_cases {scope : Scope} {names : List String} {text : String}
    {collection : Collection} (resolved : scope.collection names text = .ok collection) :
    collection = .whole (scope.resolve names) ∨
      ∃ member field, (scope.resolve names).members = [member, field] ∧
        collection = .projected ⟨(scope.resolve names).receiver, [member]⟩ field
          scope.nextVar := by
  unfold Scope.collection at resolved
  simp only at resolved
  split at resolved <;> cases resolved
  · exact .inl rfl
  · exact .inl rfl
  · rename_i member field parts
    exact .inr ⟨member, field, parts, rfl⟩

/-- What this reader reads as one expression is one by the rules. -/
def SoundSlices (read : SliceReader) : Prop :=
  ∀ ⦃scope : Scope⦄ ⦃tokens : List Token⦄ ⦃expr : Expr⦄,
    (read scope tokens).result = .ok expr → Reads scope tokens (.items [expr])

open Traced

section Slices

variable {read : SliceReader} {source : List Char} {scope : Scope} {signature : Signature}

namespace Aggregation

theorem readCollection_reads (sound : SoundSlices read) {tokens : List Token} {expr : Expr}
    (success : (readCollection read source scope tokens).result = .ok expr) :
    Reads scope tokens (.collection expr) := by
  unfold readCollection at success
  split at success
  · cases success
    exact .receiver
  · split at success
    · rename_i names dotted
      obtain ⟨collection, resolved, success⟩ := result_bind_eq_ok.1 success
      cases success
      exact .named dotted resolved
    · rename_i other
      exact .computed (sound success) other

theorem readOptional_reads (sound : SoundSlices read) {mark : Mark} {part : Option (List Token)}
    {tokens : List Token} {expr : Option Expr} (marked : Marked mark part tokens)
    (success : (readOptional read scope part).result = .ok expr) :
    Reads scope tokens (.clause mark expr) := by
  cases part with
  | none =>
    cases success
    obtain rfl : tokens = [] := marked
    exact .absent
  | some body =>
    obtain ⟨token, rfl, kind⟩ := marked
    obtain ⟨value, given, success⟩ := result_bind_eq_ok.1 success
    cases success
    exact .present kind (sound given)

theorem readSource_reads (sound : SoundSlices read) {clause : Clause} {middle : List Token}
    {found : Source} (marked : Marked .whereWord clause.predicate middle)
    (success : (readSource read source scope clause).result = .ok found) :
    Reads scope clause.collection (.collection found.collection) ∧
      Reads (scope.element scope.nextVar) middle
        (.clause .whereWord found.predicate) ∧
      found.var = scope.nextVar ∧ found.elements = scope.element scope.nextVar := by
  obtain ⟨collection, first, success⟩ := result_bind_eq_ok.1 success
  obtain ⟨predicate, second, success⟩ := result_bind_eq_ok.1 success
  cases success
  exact ⟨readCollection_reads sound first, readOptional_reads sound marked second, rfl, rfl⟩

theorem readReduction_reads (sound : SoundSlices read) {name : String} {tokens : List Token}
    {expr : Expr} (relational : isRelational name tokens scope = true)
    (success : (readReduction read source name tokens scope).result = .ok expr) :
    Reads scope tokens (.arguments name expr) := by
  obtain ⟨clause, cut, success⟩ := result_bind_eq_ok.1 success
  obtain ⟨found, reading, success⟩ := result_bind_eq_ok.1 success
  obtain ⟨projection, value, done⟩ := result_bind_eq_ok.1 success
  obtain ⟨middle, behind, rfl, isWhere, isArrow⟩ := splitClause_marked cut
  obtain ⟨collection, predicate, var, elements⟩ := readSource_reads sound isWhere reading
  rw [elements] at value
  cases known : Reducer.ofName? name with
  | none =>
    rw [known] at done
    cases done
  | some reducer =>
    rw [known] at done
    cases done
    rw [var]
    exact .reduce known collection predicate (readOptional_reads sound isArrow value) relational

theorem splitKey_reads (sound : SoundSlices read) {name : String} {tokens : List Token} {key : Key}
    {expr : Expr} (split : splitKey name tokens = .ok key)
    (success : (read (scope.lambda key.parameter) key.body).result = .ok expr) :
    Reads scope tokens (.key key.parameter expr) := by
  obtain ⟨parameter, arrow, rfl, named, kind⟩ := splitKey_eq_ok split
  exact .key named kind (sound success)

/-- The parts of a keyed aggregation are its source and its key. -/
theorem splitKeyed_reads (sound : SoundSlices read) {name : String} {parts : List (List Token)}
    {tokens : List Token} {clause : Clause} {key : Key} {found : Source} {body : Expr}
    (joined : Joined parts tokens) (each : ∀ part ∈ parts, IsArgument part)
    (keyed : splitKeyed name parts = .ok (clause, key))
    (reading : (readSource read source scope clause).result = .ok found)
    (success : (read (scope.lambda key.parameter) key.body).result = .ok body) :
    ∃ before behind, tokens = before ++ behind ∧
      Reads scope before (.source found.collection found.predicate) ∧
      Reads scope behind (.key key.parameter body) ∧ found.var = scope.nextVar := by
  rcases splitKeyed_eq_ok keyed with
    ⟨lambda, rfl, rfl, split⟩ | ⟨given, lambda, rfl, cut, plain, split⟩
  · cases joined
    cases reading
    exact ⟨[], tokens, rfl, .ownSource, splitKey_reads sound split success, rfl⟩
  · have nonempty := (each given (by simp)).present
    obtain ⟨middle, behind, rfl, isWhere, isArrow⟩ := splitClause_marked cut
    obtain ⟨collection, predicate, var, -⟩ := readSource_reads sound isWhere reading
    rw [plain] at isArrow
    obtain rfl : behind = [] := isArrow
    cases joined with
    | more kind others =>
      cases others
      rename_i comma
      refine ⟨clause.collection ++ middle ++ [comma], lambda, by simp, ?_, ?_, var⟩
      · exact .givenSource collection predicate kind (by simpa using nonempty)
      · exact splitKey_reads sound split success

theorem readExtreme_reads (sound : SoundSlices read) {which : Extreme} {name : String}
    {tokens : List Token} {expr : Expr}
    (known : (name = "MINBY" ∧ which = .least) ∨ (name = "MAXBY" ∧ which = .greatest))
    (success : (readExtreme read source which name tokens scope).result = .ok expr) :
    Reads scope tokens (.arguments name expr) := by
  obtain ⟨parts, split, success⟩ := result_bind_eq_ok.1 success
  obtain ⟨⟨clause, key⟩, keyed, success⟩ := result_bind_eq_ok.1 success
  obtain ⟨found, reading, success⟩ := result_bind_eq_ok.1 success
  obtain ⟨body, taken, success⟩ := result_bind_eq_ok.1 success
  cases success
  have is := splitArguments_eq_ok.1 split
  obtain ⟨before, behind, rfl, given, chosen, var⟩ :=
    splitKeyed_reads sound is.joined is.each keyed reading taken
  rw [var]
  exact .extreme known given chosen

theorem readTop_reads (sound : SoundSlices read) {tokens : List Token} {expr : Expr}
    (success : (readTop read source "TOPN" tokens scope).result = .ok expr) :
    Reads scope tokens (.arguments "TOPN" expr) := by
  obtain ⟨parts, split, success⟩ := result_bind_eq_ok.1 success
  obtain ⟨joined, each⟩ := splitArguments_eq_ok.1 split
  split at success
  · cases success
  · cases success
  · rename_i first keyedParts several
    obtain ⟨count, number, success⟩ := result_bind_eq_ok.1 success
    obtain ⟨⟨clause, key⟩, keyed, success⟩ := result_bind_eq_ok.1 success
    obtain ⟨found, reading, success⟩ := result_bind_eq_ok.1 success
    obtain ⟨body, taken, success⟩ := result_bind_eq_ok.1 success
    cases success
    cases joined with
    | one => exact (several rfl).elim
    | more kind others =>
      obtain ⟨before, behind, rfl, given, chosen, var⟩ :=
        splitKeyed_reads sound others (fun part member => each part (.tail _ member)) keyed reading
          taken
      rw [var]
      exact .top (sound number) kind given chosen

theorem read_reads (sound : SoundSlices read) {name : String} {tokens : List Token} {expr : Expr}
    (relational : isRelational name tokens scope = true)
    (success : (Aggregation.read read source name tokens scope).result = .ok expr) :
    Reads scope tokens (.arguments name expr) := by
  obtain ⟨_, -, success⟩ := result_bind_eq_ok.1 success
  split at success
  · exact readExtreme_reads sound (.inl ⟨rfl, rfl⟩) success
  · exact readExtreme_reads sound (.inr ⟨rfl, rfl⟩) success
  · exact readTop_reads sound success
  · exact readReduction_reads sound relational success

end Aggregation

namespace Call

theorem readPositional_reads (sound : SoundSlices read) {tokens : List Token} {expr : Expr}
    (success : (readPositional read scope signature tokens).result = .ok expr) :
    Reads scope tokens (.items [expr]) := by
  unfold readPositional at success
  split at success
  · cases success
  · exact sound success

theorem readAll_reads (sound : SoundSlices read) {parts : List (List Token)} {tokens : List Token}
    {exprs : List Expr} (joined : Joined parts tokens)
    (success : (readAll read scope signature parts).result = .ok exprs) :
    Reads scope tokens (.items exprs) ∧ exprs.length = parts.length := by
  induction joined generalizing exprs with
  | none =>
    cases success
    exact ⟨.nothing, rfl⟩
  | one =>
    obtain ⟨first, taken, success⟩ := result_bind_eq_ok.1 success
    cases success
    exact ⟨readPositional_reads sound taken, rfl⟩
  | more kind others ih =>
    obtain ⟨first, taken, success⟩ := result_bind_eq_ok.1 success
    obtain ⟨rest, found, success⟩ := result_bind_eq_ok.1 success
    cases success
    obtain ⟨reads, count⟩ := ih found
    cases rest with
    | nil => cases count
    | cons next rest =>
      exact ⟨.more (readPositional_reads sound taken) kind reads, by simpa using count⟩

/-- The tokens of an argument with a keyword. -/
theorem keyword?_eq_some {tokens value : List Token} {key : ArgumentKey}
    (found : keyword? tokens = some (key, value)) :
    ∃ word sign spelled, tokens = word :: sign :: value ∧ word.kind = .ident spelled ∧
      ArgumentKey.ofName? spelled = some key ∧ sign.kind = .equal := by
  unfold keyword? at found
  split at found
  · rename_i spelled _ _ _ _ rest
    obtain ⟨_, known, same⟩ := Option.map_eq_some_iff.1 found
    cases same
    exact ⟨_, _, spelled, rfl, rfl, known, rfl⟩
  · cases found

theorem readValue_reads (sound : SoundSlices read) {key : ArgumentKey} {comma : Token}
    {tokens value : List Token} {expr : Expr} (kind : comma.kind = .comma)
    (found : keyword? tokens = some (key, value))
    (success : (readValue read scope signature key value).result = .ok expr) :
    Reads scope (comma :: tokens) (.keyword key expr) := by
  obtain ⟨word, sign, spelled, rfl, named, known, equals⟩ := keyword?_eq_some found
  unfold readValue at success
  split at success
  · cases success
  · exact .keyword kind named known equals (sound success)

theorem readOverMember_reads (sound : SoundSlices read) {name : String} {comma : Token}
    {collection member : List Token} {expr : Expr} (known : Signature.lookup? name = some signature)
    (table : Aggregation.isRelational name (collection ++ comma :: member) scope = false)
    (shape : signature.shape = .collectionField) (kind : comma.kind = .comma)
    (success : (readOverMember read source scope signature collection member).result = .ok expr) :
    Reads scope (collection ++ comma :: member) (.arguments name expr) := by
  obtain ⟨target, first, success⟩ := result_bind_eq_ok.1 success
  obtain ⟨spelled, second, success⟩ := result_bind_eq_ok.1 success
  cases success
  rw [result_liftM] at second
  unfold memberName at second
  split at second
  · cases second
    exact .overMember known table shape (readPositional_reads sound first) kind rfl
  · cases second

theorem readAlongAxis_reads (sound : SoundSlices read) {name : String} {comma : Token}
    {target axis : List Token} {expr : Expr} (known : Signature.lookup? name = some signature)
    (table : Aggregation.isRelational name (target ++ comma :: axis) scope = false)
    (shape : signature.shape = .axisKeyword) (kind : comma.kind = .comma)
    (success : (readAlongAxis read source scope signature target axis).result = .ok expr) :
    Reads scope (target ++ comma :: axis) (.arguments name expr) := by
  obtain ⟨array, first, success⟩ := result_bind_eq_ok.1 success
  split at success
  · rename_i value found
    obtain ⟨along, second, success⟩ := result_bind_eq_ok.1 success
    cases success
    exact .alongAxis known table shape (readPositional_reads sound first)
      (readValue_reads sound kind found second)
  · cases success
  · cases success

theorem readKeywords_cons {keywords found : Keywords} {argument : List Token}
    {rest : List (List Token)}
    (success : (readKeywords read source scope signature keywords (argument :: rest)).result =
      .ok found) :
    ∃ key value expr, keyword? argument = some (key, value) ∧ keywords.get? key = none ∧
      (readValue read scope signature key value).result = .ok expr ∧
      (readKeywords read source scope signature (keywords.set expr key) rest).result =
        .ok found := by
  rw [readKeywords] at success
  split at success
  · cases success
  · rename_i key value given
    split at success
    · cases success
    · rename_i free
      obtain ⟨expr, taken, done⟩ := result_bind_eq_ok.1 success
      exact ⟨key, value, expr, given, by simpa using free, taken, done⟩

/-- With both keywords given, no further argument is read. -/
theorem readKeywords_full {keywords found : Keywords} {arguments : List (List Token)}
    {axis index : Expr} (along : keywords.axis = some axis) (place : keywords.index = some index)
    (success : (readKeywords read source scope signature keywords arguments).result = .ok found) :
    arguments = [] ∧ found = keywords := by
  cases arguments with
  | nil =>
    cases success
    exact ⟨rfl, rfl⟩
  | cons argument rest =>
    obtain ⟨key, value, expr, -, free, -⟩ := readKeywords_cons success
    cases key with
    | axis =>
      rw [Keywords.get?, along] at free
      cases free
    | index =>
      rw [Keywords.get?, place] at free
      cases free

/-- An argument of the call gives this keyword this value. -/
def Gives (read : SliceReader) (scope : Scope) (signature : Signature) (argument : List Token)
    (key : ArgumentKey) (expr : Expr) : Prop :=
  ∃ value, keyword? argument = some (key, value) ∧
    (readValue read scope signature key value).result = .ok expr

/-- Both keywords are given by two arguments, in either order. -/
theorem readKeywords_both {arguments : List (List Token)} {axis index : Expr}
    (success : (readKeywords read source scope signature ⟨none, none⟩ arguments).result =
      .ok ⟨some axis, some index⟩) :
    ∃ first second, arguments = [first, second] ∧
      ((Gives read scope signature first .axis axis ∧
          Gives read scope signature second .index index) ∨
        (Gives read scope signature first .index index ∧
          Gives read scope signature second .axis axis)) := by
  rcases arguments with _ | ⟨first, _ | ⟨second, rest⟩⟩
  · cases success
  · obtain ⟨key, value, expr, -, -, -, done⟩ := readKeywords_cons success
    cases key <;> cases done
  · obtain ⟨key, value, expr, given, -, taken, done⟩ := readKeywords_cons success
    obtain ⟨other, next, expr', given', free, taken', done⟩ := readKeywords_cons done
    cases key <;> cases other
    · cases free
    · obtain ⟨rfl, same⟩ := readKeywords_full rfl rfl done
      cases same
      exact ⟨first, second, rfl, .inl ⟨⟨value, given, taken⟩, next, given', taken'⟩⟩
    · obtain ⟨rfl, same⟩ := readKeywords_full rfl rfl done
      cases same
      exact ⟨first, second, rfl, .inr ⟨⟨value, given, taken⟩, next, given', taken'⟩⟩
    · cases free

theorem readSlice_reads (sound : SoundSlices read) {name : String} {target tokens : List Token}
    {rest : List (List Token)} {expr : Expr} (known : Signature.lookup? name = some signature)
    (table : Aggregation.isRelational name tokens scope = false)
    (shape : signature.shape = .sliceKeywords) (joined : Joined (target :: rest) tokens)
    (success : (readSlice read source scope signature target rest).result = .ok expr) :
    Reads scope tokens (.arguments name expr) := by
  obtain ⟨array, first, success⟩ := result_bind_eq_ok.1 success
  obtain ⟨⟨axis?, index?⟩, given, success⟩ := result_bind_eq_ok.1 success
  rcases axis? with _ | axis
  · cases success
  rcases index? with _ | index
  · cases success
  obtain ⟨_, inRange, success⟩ := result_bind_eq_ok.1 success
  cases success
  obtain ⟨one, two, rfl, order⟩ := readKeywords_both given
  cases joined with
  | more kind others =>
    cases others with
    | more kind' others =>
      cases others
      have target := readPositional_reads sound first
      rcases order with
        ⟨⟨_, found, taken⟩, _, found', taken'⟩ | ⟨⟨_, found, taken⟩, _, found', taken'⟩
      · exact .slice known table shape inRange target (readValue_reads sound kind found taken)
          (readValue_reads sound kind' found' taken') (.inl rfl)
      · exact .slice known table shape inRange target (readValue_reads sound kind' found' taken')
          (readValue_reads sound kind found taken) (.inr rfl)

theorem readShape_reads (sound : SoundSlices read) {name : String} {tokens : List Token}
    {parts : List (List Token)} {expr : Expr} (known : Signature.lookup? name = some signature)
    (table : Aggregation.isRelational name tokens scope = false)
    (arity : signature.arity.accepts parts.length = true) (joined : Joined parts tokens)
    (success : (readShape read source scope signature parts).result = .ok expr) :
    Reads scope tokens (.arguments name expr) := by
  unfold readShape at success
  split at success
  · rename_i shape
    obtain ⟨exprs, taken, success⟩ := result_bind_eq_ok.1 success
    cases success
    obtain ⟨reads, count⟩ := readAll_reads sound joined taken
    exact .positional known table (.inl shape) (by rw [count, arity]) reads
  · rename_i shape
    obtain ⟨exprs, taken, success⟩ := result_bind_eq_ok.1 success
    cases success
    obtain ⟨reads, count⟩ := readAll_reads sound joined taken
    exact .positional known table (.inr shape) (by rw [count, arity]) reads
  · rename_i shape
    cases joined with
    | more kind others =>
      cases others
      exact readOverMember_reads sound known table shape kind success
  · rename_i shape
    obtain ⟨array, taken, success⟩ := result_bind_eq_ok.1 success
    cases success
    cases joined
    exact .wholeArray known table shape (readPositional_reads sound taken)
  · rename_i shape
    cases joined with
    | more kind others =>
      cases others
      exact readAlongAxis_reads sound known table shape kind success
  · rename_i shape
    exact readSlice_reads sound known table shape joined success
  · cases success

theorem read_reads (sound : SoundSlices read) {name : String} {tokens : List Token} {expr : Expr}
    (success : (Call.read read source scope name tokens).result = .ok expr) :
    Reads scope tokens (.arguments name.toUpper expr) := by
  simp only [Call.read] at success
  split at success
  · rename_i relational
    exact Aggregation.read_reads sound relational success
  · rename_i table
    split at success
    · cases success
    · rename_i signature known
      obtain ⟨parts, split, success⟩ := result_bind_eq_ok.1 success
      split at success
      · rename_i arity
        exact readShape_reads sound known (by simpa using table) arity (splitArguments_joined split)
          success
      · cases success

end Call

end Slices

namespace Grammar

/-- What this reader takes off a list is an expression by the rules. -/
def SoundReader (reader : Reader) : Prop :=
  ∀ ⦃context : Context⦄ ⦃tokens rest : List Token⦄ ⦃expr : Expr⦄,
    (reader context tokens).Yields expr rest →
      ∃ used, tokens = used ++ rest ∧ Reads context.scope used (.items [expr])

theorem soundSlices_readWhole {inner : Inner} (sound : SoundReader (inner .expression))
    (source : List Char) : SoundSlices (readWhole inner source) := by
  intro scope tokens expr success
  obtain ⟨-, yields⟩ := readWhole_eq_ok.1 success
  obtain ⟨used, rfl, reads⟩ := sound yields
  simpa using reads

theorem chained_reads {operator? : Kind → Option BinaryOp} {operand : Reader} {context : Context}
    (infixes : ∀ kind op, operator? kind = some op → infixOperator? kind = some op)
    (sound : SoundReader operand) {left final : Expr} {tokens rest before : List Token}
    (chained : Chained operator? operand context left tokens final rest)
    (reads : Reads context.scope before (.items [left])) :
    ∃ used, tokens = used ++ rest ∧ Reads context.scope (before ++ used) (.items [final]) := by
  induction chained generalizing before with
  | stop => exact ⟨[], rfl, by simpa using reads⟩
  | step found taken _ ih =>
    rename_i token _ _ _ _
    obtain ⟨behind, rfl, right⟩ := sound taken
    obtain ⟨used, rfl, reads⟩ := ih (.binary (infixes _ _ found) reads right)
    exact ⟨token :: (behind ++ used), by simp, by simpa using reads⟩

theorem soundReader_leftAssociative {operator? : Kind → Option BinaryOp} {operand : Reader}
    (infixes : ∀ kind op, operator? kind = some op → infixOperator? kind = some op)
    (sound : SoundReader operand) : SoundReader (leftAssociative operator? operand) := by
  intro context tokens rest expr yields
  obtain ⟨first, middle, taken, chained⟩ := leftAssociative_yields.1 yields
  obtain ⟨before, rfl, reads⟩ := sound taken
  obtain ⟨used, rfl, reads⟩ := chained_reads infixes sound chained reads
  exact ⟨before ++ used, by simp, reads⟩

theorem listed_reads {expression : Reader} (sound : SoundReader expression) {context : Context}
    {tokens rest : List Token} {exprs : List Expr}
    (listed : Listed expression context tokens exprs rest) :
    exprs ≠ [] ∧ ∃ used, tokens = used ++ rest ∧ Reads context.scope used (.items exprs) := by
  induction listed with
  | last taken _ => exact ⟨by simp, sound taken⟩
  | more taken kind _ ih =>
    obtain ⟨before, rfl, first⟩ := sound taken
    obtain ⟨nonempty, used, rfl, others⟩ := ih
    obtain ⟨next, exprs, rfl⟩ := List.exists_cons_of_ne_nil nonempty
    exact ⟨by simp, _, by simp, .more first kind others⟩

theorem nameValue_reads {context : Context} {head : Token} {name : String}
    {tokens rest : List Token} {expr : Expr} (kind : head.kind = .ident name)
    (yields : (nameValue context head name tokens).Yields expr rest) :
    ∃ used, head :: tokens = used ++ rest ∧ Reads context.scope used (.items [expr]) := by
  rcases nameValue_yields.1 yields with
    ⟨known, rfl⟩ | ⟨plain, tail, path, found, resolved, rfl, rfl⟩
  · exact ⟨[head], rfl, .literal kind known⟩
  · obtain ⟨used, whole, dotted⟩ := referenceNames?_of_members found kind
    exact ⟨head :: used, congrArg (head :: ·) whole,
      .reference dotted resolved (by simpa using plain)⟩

section Levels

variable {inner : Inner} (sound : ∀ entry, SoundReader (inner entry))

include sound

theorem group_reads {context : Context} {opening : Token} {tokens rest : List Token} {expr : Expr}
    (opens : opening.kind = .openParen) (yields : (group inner context tokens).Yields expr rest) :
    ∃ used, opening :: tokens = used ++ rest ∧ Reads context.scope used (.items [expr]) := by
  obtain ⟨exprs, closing, listed, closes, rfl⟩ := group_yields.1 yields
  obtain ⟨nonempty, used, rfl, reads⟩ := listed_reads (sound .expression) listed
  refine ⟨opening :: used ++ [closing], by simp, ?_⟩
  rcases exprs with _ | ⟨first, _ | ⟨second, more⟩⟩
  · exact absurd rfl nonempty
  · exact .group opens closes reads
  · exact .tuple opens closes reads (by simp)

theorem listLiteral_reads {context : Context} {opening : Token} {tokens rest : List Token}
    {expr : Expr} (opens : opening.kind = .openBracket)
    (yields : (listLiteral inner context tokens).Yields expr rest) :
    ∃ used, opening :: tokens = used ++ rest ∧ Reads context.scope used (.items [expr]) := by
  rcases listLiteral_yields.1 yields with
    ⟨closing, rfl, closes, rfl⟩ | ⟨-, exprs, closing, listed, closes, rfl⟩
  · exact ⟨[opening, closing], rfl, .list opens closes .nothing⟩
  · obtain ⟨-, used, rfl, reads⟩ := listed_reads (sound .expression) listed
    exact ⟨opening :: used ++ [closing], by simp, .list opens closes reads⟩

theorem called_reads {context : Context} {head opening : Token} {name : String}
    {tokens inside rest : List Token} {expr : Expr} (kind : calledName? head.kind = some name)
    (opens : opening.kind = .openParen) (closed : upToClose 0 tokens = some (inside, rest))
    (success : (Call.read (readWhole inner context.source) context.source context.scope name
      inside).result = .ok expr) :
    ∃ used, head :: opening :: tokens = used ++ rest ∧
      Reads context.scope used (.items [expr]) := by
  obtain ⟨closing, rfl, closes⟩ := upToClose_append closed
  have slices := soundSlices_readWhole (sound .expression) context.source
  exact ⟨head :: opening :: (inside ++ [closing]), by simp,
    .call kind opens closes (Call.read_reads slices success)⟩

theorem named_reads {context : Context} {head : Token} {name : String} {tokens rest : List Token}
    {expr : Expr} (kind : head.kind = .ident name)
    (yields : (named inner context head name tokens).Yields expr rest) :
    ∃ used, head :: tokens = used ++ rest ∧ Reads context.scope used (.items [expr]) := by
  by_cases stops : NotNext (· = .openParen) tokens
  · rw [named_value stops] at yields
    exact nameValue_reads kind yields
  · cases tokens with
    | nil => exact absurd notNext_nil stops
    | cons opening tokens =>
      have opens : opening.kind = .openParen := by simpa using stops
      obtain ⟨inside, closed, success⟩ := (named_call opens).1 yields
      exact called_reads sound (by rw [kind]; rfl) opens closed success

theorem conditional_reads {context : Context} {keyword : Token} {tokens rest : List Token}
    {expr : Expr} (kind : keyword.kind = .keyword .ifWord)
    (yields : (conditional inner context keyword tokens).Yields expr rest) :
    ∃ used, keyword :: tokens = used ++ rest ∧ Reads context.scope used (.items [expr]) := by
  obtain ⟨opening, after, inside, tail, rfl, opens, closed, call | branch⟩ :=
    conditional_yields.1 yields
  · obtain ⟨-, rfl, success⟩ := call
    exact called_reads sound (by rw [kind]; rfl) opens closed success
  · obtain ⟨thenToken, more, test, rfl, isThen, success, branch⟩ := branch
    obtain ⟨yes, elseToken, behind, no, first, isElse, second, rfl⟩ := branches_yields.1 branch
    obtain ⟨closing, rfl, closes⟩ := upToClose_append closed
    obtain ⟨before, rfl, left⟩ := sound .expression first
    obtain ⟨last, rfl, right⟩ := sound .expression second
    have condition := soundSlices_readWhole (sound .expression) context.source success
    exact ⟨_, by simp, .conditional kind opens closes isThen isElse condition left right⟩

theorem soundReader_primary : SoundReader (primary inner) := by
  intro context tokens rest expr yields
  cases tokens with
  | nil => exact absurd yields primary_nil
  | cons token tokens =>
    have starts := primary_starts yields
    cases kind : token.kind with
    | number digits =>
      obtain ⟨rfl, rfl⟩ := (primary_number kind).1 yields
      exact ⟨[token], rfl, .number kind⟩
    | string literal =>
      obtain ⟨rfl, rfl⟩ := (primary_string kind).1 yields
      exact ⟨[token], rfl, .text kind⟩
    | openParen => exact group_reads sound kind ((primary_openParen kind).1 yields)
    | openBracket => exact listLiteral_reads sound kind ((primary_openBracket kind).1 yields)
    | ident name => exact named_reads sound kind ((primary_ident kind).1 yields)
    | keyword word =>
      cases word with
      | ifWord => exact conditional_reads sound kind ((primary_if kind).1 yields)
      | _ => simp [kind, startsPrimary] at starts
    | _ => simp [kind, startsPrimary] at starts

theorem soundReader_power : SoundReader (power inner) := by
  intro context tokens rest expr yields
  obtain ⟨base, middle, taken, plain | raised⟩ := power_yields.1 yields
  · obtain ⟨-, rfl, rfl⟩ := plain
    exact soundReader_primary sound taken
  · obtain ⟨caret, after, exponent, rfl, kind, second, rfl⟩ := raised
    obtain ⟨before, rfl, left⟩ := soundReader_primary sound taken
    obtain ⟨behind, rfl, right⟩ := sound .signed second
    exact ⟨before ++ caret :: behind, by simp, .binary (by rw [kind]; rfl) left right⟩

theorem soundReader_signed : SoundReader (signed inner) := by
  intro context tokens rest expr yields
  by_cases unsigned : NotNext (fun kind => kind = .minus ∨ kind = .plus) tokens
  · rw [signed_unsigned unsigned] at yields
    exact soundReader_power sound yields
  · cases tokens with
    | nil => exact absurd notNext_nil unsigned
    | cons token tokens =>
      rcases Classical.not_not.1 (mt notNext_cons.2 unsigned) with minus | plus
      · obtain ⟨operand, taken, rfl⟩ := (signed_minus minus).1 yields
        obtain ⟨used, rfl, reads⟩ := sound .signed taken
        exact ⟨token :: used, rfl, .negate minus reads⟩
      · obtain ⟨used, rfl, reads⟩ := sound .signed ((signed_plus plus).1 yields)
        exact ⟨token :: used, rfl, .positive plus reads⟩

theorem soundReader_product : SoundReader (product inner) := by
  refine soundReader_leftAssociative ?_ (soundReader_signed sound)
  intro kind op found
  cases kind <;> simp_all [productOperator?, infixOperator?, comparisonOperator?, sumOperator?]

theorem soundReader_sum : SoundReader (sum inner) := by
  refine soundReader_leftAssociative ?_ (soundReader_product sound)
  intro kind op found
  cases kind <;> simp_all [sumOperator?, infixOperator?, comparisonOperator?]

theorem soundReader_comparison : SoundReader (comparison inner) := by
  intro context tokens rest expr yields
  obtain ⟨left, middle, taken, plain | compared⟩ := comparison_yields.1 yields
  · obtain ⟨-, rfl, rfl⟩ := plain
    exact soundReader_sum sound taken
  · obtain ⟨sign, after, op, value, rfl, found, second, rfl⟩ := compared
    obtain ⟨before, rfl, left⟩ := soundReader_sum sound taken
    obtain ⟨behind, rfl, right⟩ := soundReader_sum sound second
    refine ⟨before ++ sign :: behind, by simp, .binary ?_ left right⟩
    cases kind : sign.kind with
    | keyword word => cases word <;> simp_all [comparisonOperator?, infixOperator?]
    | _ => simp_all [comparisonOperator?, infixOperator?]

theorem soundReader_negation : SoundReader (negation inner) := by
  intro context tokens rest expr yields
  by_cases positive : NotNext (· = .keyword .notWord) tokens
  · rw [negation_positive positive] at yields
    exact soundReader_comparison sound yields
  · cases tokens with
    | nil => exact absurd notNext_nil positive
    | cons token tokens =>
      have kind : token.kind = .keyword .notWord := by simpa using positive
      obtain ⟨operand, taken, rfl⟩ := (negation_not kind).1 yields
      obtain ⟨used, rfl, reads⟩ := sound .negation taken
      exact ⟨token :: used, rfl, .not kind reads⟩

theorem soundReader_conjunction : SoundReader (conjunction inner) := by
  refine soundReader_leftAssociative ?_ (soundReader_negation sound)
  intro kind op found
  unfold andOperator? at found
  split at found <;> simp_all [infixOperator?]

theorem soundReader_disjunction : SoundReader (disjunction inner) := by
  refine soundReader_leftAssociative ?_ (soundReader_conjunction sound)
  intro kind op found
  unfold orOperator? at found
  split at found <;> simp_all [infixOperator?]

end Levels

theorem soundReader_readerAt (levels : Nat) (entry : Entry) :
    SoundReader (readerAt levels entry) := by
  induction levels generalizing entry with
  | zero =>
    intro context tokens rest expr yields
    exact absurd yields readerAt_zero
  | succ levels ih =>
    cases entry with
    | expression => exact soundReader_disjunction ih
    | negation => exact soundReader_negation ih
    | signed => exact soundReader_signed ih

end Grammar

namespace Formula

theorem reads_of_readSlice {source : List Char} : SoundSlices (readSlice source) :=
  Grammar.soundSlices_readWhole (Grammar.soundReader_readerAt maxNesting .expression) source

theorem parse_eq_ok {formula : String} {expr : Expr} :
    (parse formula).result = .ok expr ↔
      ∃ tokens, tokenize formula = .ok tokens ∧
        ((tokens = [] ∧ expr = .null) ∨
          (tokens ≠ [] ∧ (readSlice formula.toList .entity tokens).result = .ok expr)) := by
  rw [parse, Traced.result_bind_eq_ok]
  constructor
  · rintro ⟨tokens, lexed, success⟩
    refine ⟨tokens, lexed, ?_⟩
    split at success
    · cases success
      exact .inl ⟨rfl, rfl⟩
    · rename_i nonempty
      exact .inr ⟨nonempty, success⟩
  · rintro ⟨tokens, lexed, ⟨rfl, rfl⟩ | ⟨nonempty, success⟩⟩
    · exact ⟨[], lexed, rfl⟩
    · refine ⟨tokens, lexed, ?_⟩
      split
      · exact absurd rfl nonempty
      · exact success

/-- An accepted formula has no tokens, or they are read by the rules. -/
theorem reads_of_parse {formula : String} {expr : Expr}
    (success : (parse formula).result = .ok expr) :
    ∃ tokens, tokenize formula = .ok tokens ∧
      ((tokens = [] ∧ expr = .null) ∨ Reads .entity tokens (.items [expr])) := by
  obtain ⟨tokens, lexed, empty | ⟨-, success⟩⟩ := parse_eq_ok.1 success
  · exact ⟨tokens, lexed, .inl empty⟩
  · exact ⟨tokens, lexed, .inr (reads_of_readSlice success)⟩

theorem compile_eq_ok {formula : String} {fragment : Fragment} :
    (compile formula).result = .ok fragment ↔
      ∃ expr, (parse formula).result = .ok expr ∧ fragment = expr.fragment := by
  rw [compile, Traced.result_bind_eq_ok]
  simp [eq_comm]

end Formula

end Formulary
