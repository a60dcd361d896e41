import Formulary.Formula.Basic
import Formulary.Formula.Conditional

set_option autoImplicit false

/- The compiler with its accesses checked. Tokens and arguments are reached by index and by range,
texts are cut at byte positions, and depths and lengths are subtracted. Each of these operations
looks at its bounds, and where they do not hold the run ends with the fault `crash`. It is a
parameter, so a run whose outcome is the same for every `crash` has never been out of bounds.

A reader that stands at some token of a list gets the list from there on, so its own token has
index 0. Readers without an access of their own are those of the grammar. -/
namespace Formulary.Checked

variable (crash : Fault)

/-- A difference that is not negative. -/
def subtract (whole part : Nat) : Except Fault Nat :=
  if part ≤ whole then .ok (whole - part) else .error crash

/-- The item at a place of a list. -/
def index {α : Type} (items : List α) (place : Nat) : Except Fault α :=
  match items[place]? with
  | some item => .ok item
  | none => .error crash

/-- The items from one place up to another. -/
def range {α : Type} (items : List α) (start stop : Nat) : Except Fault (List α) :=
  if start ≤ stop ∧ stop ≤ items.length then .ok ((items.take stop).drop start) else .error crash

/-- Whether a byte position of a text is in front of a character or at the end. -/
def splitsAt : List Char → Nat → Bool
  | _, 0 => true
  | [], _ + 1 => false
  | c :: cs, place + 1 => decide (c.utf8Size ≤ place + 1) && splitsAt cs (place + 1 - c.utf8Size)

/-- The text between two byte positions. -/
def slice (source : List Char) (start stop : Nat) : Except Fault String :=
  if start ≤ stop ∧ splitsAt source start = true ∧ splitsAt source stop = true then
    .ok (Text.slice source start stop)
  else .error crash

/-- The text from a byte position on. -/
def suffix (source : List Char) (start : Nat) : Except Fault (List Char) :=
  if splitsAt source start = true then .ok (Text.dropBytes start source) else .error crash

/-- The second byte of a character is no place to cut. -/
example : slice crash ['é', 'a'] 1 3 = .error crash := rfl

theorem suffix_shorter {crash : Fault} {c : Char} {cs after : List Char}
    (found : suffix crash (c :: cs) c.utf8Size = .ok after) :
    after.length < (c :: cs).length := by
  unfold suffix at found
  split at found
  · obtain rfl := Except.ok.inj found
    have dropped : Text.dropBytes c.utf8Size (c :: cs) = cs := by
      simpa using Text.dropBytes_byteSize_append [c] cs
    rw [dropped]
    exact Nat.lt_succ_self _
  · contradiction

/-- The position of a rest of the source. -/
def offset (source rest : List Char) : Except Fault Nat :=
  subtract crash (Text.byteSize source) (Text.byteSize rest)

def tokensFrom (source rest : List Char) : Except Fault (List Token) :=
  match rest with
  | [] => .ok []
  | c :: cs =>
    if isSeparator c then tokensFrom source cs
    else do
      let start ← offset crash source (c :: cs)
      match _ : Lexeme.read? (c :: cs) with
      | none => .error (.malformed start (strayCause c))
      | some lexeme =>
        let stop ← offset crash source lexeme.rest
        let more ← tokensFrom source lexeme.rest
        return ⟨lexeme.kind, start, stop⟩ :: more
termination_by rest.length
decreasing_by
  · simp
  · exact Lexeme.read?_shorter ‹_›

def tokenize (source : String) : Except Fault (List Token) :=
  tokensFrom crash source.toList source.toList

def lenientTokensFrom (source rest : List Char) : Except Fault (List Token) :=
  match rest with
  | [] => .ok []
  | c :: cs =>
    if Text.isBlank c then lenientTokensFrom source cs
    else do
      let start ← offset crash source (c :: cs)
      match _ : Lexeme.read? (c :: cs) with
      | none =>
        match _ : suffix crash (c :: cs) c.utf8Size with
        | .error fault => .error fault
        | .ok after => lenientTokensFrom source after
      | some lexeme =>
        let stop ← offset crash source lexeme.rest
        let more ← lenientTokensFrom source lexeme.rest
        return ⟨lexeme.kind, start, stop⟩ :: more
termination_by rest.length
decreasing_by
  · simp
  · exact suffix_shorter ‹_›
  · exact Lexeme.read?_shorter ‹_›

def tokenizeLenient (source : String) : Except Fault (List Token) :=
  lenientTokensFrom crash source.toList source.toList

/-- The index of the round bracket that closes as many as are open, if there is one. -/
def closingIndex (depth place : Nat) : List Token → Except Fault (Option Nat)
  | [] => .ok none
  | token :: rest =>
    match token.kind with
    | .openParen => closingIndex (depth + 1) (place + 1) rest
    | .closeParen => do
      let depth ← subtract crash depth 1
      if depth = 0 then return some place else closingIndex depth (place + 1) rest
    | _ => closingIndex depth (place + 1) rest

/-- The index of the round bracket that closes the one at `place`, or why there is none. -/
def matchingParen (tokens : List Token) (place : Nat) : Except Fault (Except Fault Nat) := do
  match ← closingIndex crash 0 place (tokens.drop place) with
  | some closing => return .ok closing
  | none =>
    let opening ← index crash tokens place
    return .error (.malformed opening.start .unclosedParen)

/-- What stands between the bracket at the head of a list and the one that closes it, and what
follows. -/
def enclosed (tokens : List Token) : Except Fault (List Token × List Token) := do
  let found ← matchingParen crash tokens 0
  let closing ← found
  let inside ← range crash tokens 1 closing
  let rest ← range crash tokens (closing + 1) tokens.length
  return (inside, rest)

theorem range_shorter {α : Type} {crash : Fault} {items part : List α} {start : Nat}
    (found : range crash items (start + 1) items.length = .ok part) :
    part.length < items.length := by
  unfold range at found
  split at found
  · rename_i bounds
    obtain rfl := Except.ok.inj found
    simp only [List.take_length, List.length_drop]
    omega
  · contradiction

theorem enclosed_shorter {crash : Fault} {tokens inside rest : List Token}
    (found : enclosed crash tokens = .ok (inside, rest)) : rest.length < tokens.length := by
  unfold enclosed at found
  simp only [bind, Except.bind] at found
  repeat' split at found
  all_goals try contradiction
  rename_i after behind
  obtain ⟨-, rfl⟩ := Prod.mk.inj (Except.ok.inj found)
  exact range_shorter behind

/-- Cuts a list at its commas at depth zero. The part that is being read begins at `start`, and
the next token has index `place`. -/
def splitFrom (tokens : List Token) (depth start place : Nat) :
    List Token → Except Fault (List (List Token))
  | [] =>
    if depth ≠ 0 then do
      let before ← subtract crash tokens.length 1
      let last ← index crash tokens before
      .error (.malformed last.stop .unclosedBracket)
    else if start = tokens.length then do
      let before ← subtract crash tokens.length 1
      let last ← index crash tokens before
      .error (.malformed last.stop .emptyArgument)
    else do
      let part ← range crash tokens start tokens.length
      return [part]
  | token :: rest =>
    if token.kind.isOpening then splitFrom tokens (depth + 1) start (place + 1) rest
    else if token.kind.isClosing then
      match depth with
      | 0 => .error (.malformed token.start .strayClosing)
      | depth + 1 => splitFrom tokens depth start (place + 1) rest
    else if token.isComma ∧ depth = 0 then
      if place = start then .error (.malformed token.start .emptyArgument)
      else do
        let part ← range crash tokens start place
        let others ← splitFrom tokens 0 (place + 1) (place + 1) rest
        return part :: others
    else splitFrom tokens depth start (place + 1) rest

def splitArguments (tokens : List Token) : Except Fault (List (List Token)) :=
  match tokens with
  | [] => .ok []
  | tokens => splitFrom crash tokens 0 0 0 tokens

/-- The text of the formula from the first token to the last. -/
def sourceText (source : List Char) (tokens : List Token) : Except Fault String :=
  match tokens.head?, tokens.getLast? with
  | some first, some last => slice crash source first.start last.stop
  | _, _ => .ok ""

def argumentTexts (source : String) : Except Fault (List String) := do
  let tokens ← tokenize crash source
  let arguments ← splitArguments crash tokens
  arguments.mapM (sourceText crash source.toList)

def joinCollection (condition : String) : Except Fault Collection := do
  let tokens ← tokenize crash condition
  let text := Text.trim condition
  match referenceNames? tokens with
  | some names =>
    match names with
    | ["this", _, _] => Scope.entity.collection names text
    | "this" :: _ :: _ :: _ => .error (.multiDotReference text)
    | _ => .error (.joinCondition text)
  | none => .error (.joinCondition text)

/-- Whether the tokens start with `IF (...) THEN`. -/
def startsConditional : List Token → Except Fault Bool
  | [] => .ok false
  | keyword :: rest =>
    if keyword.kind = .keyword .ifWord ∧ (rest[0]?.map Token.kind) = some .openParen then do
      match ← matchingParen crash rest 0 with
      | .ok closing => return rest[closing + 1]?.any fun next => next.kind == .keyword .thenWord
      | .error _ => return false
    else .ok false

def holdsConditional : List Token → Except Fault Bool
  | [] => .ok false
  | token :: rest => do
    if ← startsConditional crash (token :: rest) then return true
    holdsConditional rest

def hasConditional (text : String) : Except Fault Bool := do
  let tokens ← tokenizeLenient crash text
  holdsConditional crash tokens

open Aggregation (Clause Key Source nonEmpty)

/-- Cuts a list at the places of `WHERE` and `=>`. -/
def cutClause (name : String) (tokens : List Token) (whereAt arrowAt : Option Nat) :
    Except Fault Clause := do
  if let (some whereAt, some arrowAt) := (whereAt, arrowAt) then
    if arrowAt < whereAt then .error (.aggregationClause name .arrowBeforeWhere)
  let predicate ← match whereAt with
    | some whereAt => do
      let found ← range crash tokens (whereAt + 1) (arrowAt.getD tokens.length)
      some <$> nonEmpty name .emptyPredicate found
    | none => .ok none
  let projection ← match arrowAt with
    | some arrowAt => do
      let found ← range crash tokens (arrowAt + 1) tokens.length
      some <$> nonEmpty name .emptyProjection found
    | none => .ok none
  let collection ← range crash tokens 0 ((whereAt <|> arrowAt).getD tokens.length)
  return ⟨collection, predicate, projection⟩

def splitClause (name : String) (tokens : List Token) : Except Fault Clause :=
  match topLevel Token.isComma tokens with
  | comma :: _ => do
    let found ← index crash tokens comma
    .error (.aggregationClause name (.comma found.start))
  | [] =>
    let wheres := topLevel Token.isWhere tokens
    let arrows := topLevel Token.isFatArrow tokens
    if 1 < wheres.length then .error (.aggregationClause name .secondWhere)
    else if 1 < arrows.length then .error (.aggregationClause name .secondArrow)
    else cutClause crash name tokens wheres.head? arrows.head?

def splitKeyed (name : String) (arguments : List (List Token)) : Except Fault (Clause × Key) :=
  match arguments with
  | [key] => do
    let key ← Aggregation.splitKey name key
    return (⟨[], none, none⟩, key)
  | [source, key] => do
    let clause ← splitClause crash name source
    if clause.projection.isSome then .error (.aggregationClause name .arrowInSource)
    let key ← Aggregation.splitKey name key
    return (clause, key)
  | _ => .error (.aggregationClause name .keyedShape)

def readCollection (read : SliceReader) (source : List Char) (scope : Scope)
    (tokens : List Token) : Traced Expr :=
  match tokens with
  | [] => return .reference (.whole ⟨scope.receiver, []⟩)
  | tokens =>
    match referenceNames? tokens with
    | some names => do
      let text ← sourceText crash source tokens
      let collection ← scope.collection names text
      return .reference collection
    | none => read scope tokens

def readSource (read : SliceReader) (source : List Char) (scope : Scope) (clause : Clause) :
    Traced Source := do
  let collection ← readCollection crash read source scope clause.collection
  let var := scope.nextVar
  let elements := scope.element var
  let predicate ← Aggregation.readOptional read elements clause.predicate
  return ⟨collection, predicate, var, elements⟩

def readReduction (read : SliceReader) (source : List Char) (name : String)
    (arguments : List Token) (scope : Scope) : Traced Expr := do
  let clause ← splitClause crash name arguments
  let found ← readSource crash read source scope clause
  let projection ← Aggregation.readOptional read found.elements clause.projection
  match Reducer.ofName? name with
  | some reducer => return .reduce reducer found.var found.collection found.predicate projection
  | none => .fail (.unknownFunction name)

def readExtreme (read : SliceReader) (source : List Char) (which : Extreme) (name : String)
    (arguments : List Token) (scope : Scope) : Traced Expr := do
  let parts ← splitArguments crash arguments
  let (clause, key) ← splitKeyed crash name parts
  let found ← readSource crash read source scope clause
  let body ← read (scope.lambda key.parameter) key.body
  return .extreme which found.var found.collection found.predicate key.parameter body

def readTop (read : SliceReader) (source : List Char) (name : String) (arguments : List Token)
    (scope : Scope) : Traced Expr := do
  let parts ← splitArguments crash arguments
  match parts with
  | [] => .fail (.aggregationClause name .missingCount)
  | [_] => .fail (.aggregationClause name .missingKey)
  | count :: keyed =>
    let count ← read scope count
    let (clause, key) ← splitKeyed crash name keyed
    let found ← readSource crash read source scope clause
    let body ← read (scope.lambda key.parameter) key.body
    return .top count found.var found.collection found.predicate key.parameter body

def readAggregation (read : SliceReader) (source : List Char) (name : String)
    (arguments : List Token) (scope : Scope) : Traced Expr := do
  let text ← sourceText crash source arguments
  Traced.note (Aggregation.record name text)
  match name with
  | "MINBY" => readExtreme crash read source .least name arguments scope
  | "MAXBY" => readExtreme crash read source .greatest name arguments scope
  | "TOPN" => readTop crash read source name arguments scope
  | _ => readReduction crash read source name arguments scope

open Call (ArgumentKey Keywords keyword? readPositional readValue checkAxis arityFault)

def memberName (source : List Char) (signature : Signature) (argument : List Token) :
    Except Fault String :=
  match argument with
  | [⟨.ident name, _, _⟩] => .ok name
  | _ => do
    let text ← sourceText crash source argument
    .error (.aggregationClause signature.name (.memberNotName text))

def readOverMember (read : SliceReader) (source : List Char) (scope : Scope)
    (signature : Signature) (arguments : List (List Token)) : Traced Expr := do
  let collection ← index crash arguments 0
  let collection ← readPositional read scope signature collection
  let member ← index crash arguments 1
  let member ← memberName crash source signature member
  return .overMember signature collection member scope.nextVar

def readAlongAxis (read : SliceReader) (source : List Char) (scope : Scope)
    (signature : Signature) (arguments : List (List Token)) : Traced Expr := do
  let target ← index crash arguments 0
  let target ← readPositional read scope signature target
  match arguments[1]? with
  | none => return .alongAxis signature target none
  | some axis =>
    match keyword? axis with
    | some (.axis, value) =>
      let axis ← readValue read scope signature .axis value
      return .alongAxis signature target (some axis)
    | some (.index, _) =>
      .fail (.keywordArgument signature.name (.unknownKey ArgumentKey.index.name))
    | none =>
      let text ← sourceText crash source axis
      .fail (.keywordArgument signature.name (.axisExpected text))

def readKeywords (read : SliceReader) (source : List Char) (scope : Scope)
    (signature : Signature) (keywords : Keywords) : List (List Token) → Traced Keywords
  | [] => return keywords
  | argument :: rest =>
    match keyword? argument with
    | none => do
      let text ← sourceText crash source argument
      .fail (.keywordArgument signature.name (.axisOrIndexExpected text))
    | some (key, value) =>
      if (keywords.get? key).isSome then
        .fail (.keywordArgument signature.name (.duplicate key.name))
      else do
        let expr ← readValue read scope signature key value
        readKeywords read source scope signature (keywords.set expr key) rest

def indexAlong (target : String) (axis : Int) (index : String) : Except Fault String :=
  if 0 ≤ axis then .ok (target ++ "[" ++ repeated axis.natAbs ":, " ++ index ++ "]")
  else do
    let behind ← subtract crash axis.natAbs 1
    return target ++ "[..., " ++ index ++ repeated behind ", :" ++ "]"

def sliceCode (signature : Signature) (target axis index : String) : Except Fault String :=
  match literalAxis? axis with
  | some n => indexAlong crash target n index
  | none => .ok (signature.template.fill [target] [("axis", axis), ("index", index)])

/-- The code of a slice is written at once, so its accesses are made even if the formula is
refused later on. -/
def readSlice (read : SliceReader) (source : List Char) (scope : Scope)
    (signature : Signature) (arguments : List (List Token)) : Traced Expr := do
  let target ← index crash arguments 0
  let target ← readPositional read scope signature target
  let rest ← range crash arguments 1 arguments.length
  let keywords ← readKeywords crash read source scope signature ⟨none, none⟩ rest
  match keywords.axis, keywords.index with
  | some axis, some index =>
    checkAxis signature axis
    let _ ← sliceCode crash signature target.render axis.render index.render
    return .slice signature target axis index
  | _, _ => .fail (.keywordArgument signature.name .bothRequired)

def readShape (read : SliceReader) (source : List Char) (scope : Scope) (signature : Signature)
    (arguments : List (List Token)) : Traced Expr :=
  match signature.shape with
  | .positional => do
    let exprs ← Call.readAll read scope signature arguments
    return .call signature exprs
  | .buildingBlock => do
    let exprs ← Call.readAll read scope signature arguments
    return .call signature exprs
  | .collectionField => readOverMember crash read source scope signature arguments
  | .axisKeyword => readAlongAxis crash read source scope signature arguments
  | .sliceKeywords => readSlice crash read source scope signature arguments

def readCall (slice : SliceReader) (source : List Char) (scope : Scope) (name : String)
    (tokens : List Token) : Traced Expr :=
  let name := name.toUpper
  if Aggregation.isRelational name tokens scope then
    readAggregation crash slice source name tokens scope
  else
    match Signature.lookup? name with
    | none => .fail (.unknownFunction name)
    | some signature => do
      let arguments ← splitArguments crash tokens
      if signature.arity.accepts arguments.length then
        readShape crash slice source scope signature arguments
      else .fail (arityFault signature arguments.length)

open Grammar (literal? members branches group listLiteral leftAssociative)

-- A reader leaves fewer tokens than it is given.

theorem rest_lt_succ (rest : List Token) : rest.length < rest.length + 1 := by omega

theorem rest_le_cons (token : Token) (rest : List Token) :
    rest.length ≤ (token :: rest).length := by simp

theorem nil_lt_cons (token : Token) (rest : List Token) :
    ([] : List Token).length < (token :: rest).length := by simp

theorem rest_le_of_cons_lt {token opening : Token} {rest after : List Token}
    (shorter : (token :: rest).length < (opening :: after).length) :
    rest.length ≤ (opening :: after).length := by
  simp only [List.length_cons] at shorter ⊢
  omega

theorem rest_lt_of_members {rest : List Token} (tail : Grammar.Members (rest.length + 1)) :
    tail.rest.length < rest.length + 1 := tail.shorter

theorem rest_lt_of_steps {tokens rest : List Token} {token : Token} {first : Step tokens.length}
    (second : Step rest.length) (found : first.rest = token :: rest) :
    second.rest.length < tokens.length := by
  have := second.shorter
  have := first.shorter
  simp_all only [List.length_cons]
  omega

def nameValue (context : Context) (head : Token) (name : String) (rest : List Token) :
    Traced (Step (rest.length + 1)) :=
  match literal? name with
  | some expr => return ⟨expr, rest, rest_lt_succ rest⟩
  | none => do
    let tail ← members head.stop rest
    let text ← slice crash context.source head.start tail.stop
    let path ← context.scope.value (name :: tail.names) text
    return ⟨.reference (.whole path), tail.rest, rest_lt_of_members tail⟩

def named (inner : Inner) (context : Context) (head : Token) (name : String)
    (rest : List Token) : Traced (Step (rest.length + 1)) :=
  match rest with
  | [] => nameValue crash context head name []
  | opening :: after =>
    if opening.kind = .openParen then
      match inside : enclosed crash (opening :: after) with
      | .error fault => .fail fault
      | .ok (arguments, tail) => do
        let expr ← readCall crash (readWhole inner context.source) context.source context.scope
          name arguments
        return ⟨expr, tail, Nat.lt_succ_of_lt (enclosed_shorter inside)⟩
    else nameValue crash context head name (opening :: after)

def conditional (inner : Inner) (context : Context) (keyword : Token) (tokens : List Token) :
    Traced (Step tokens.length) :=
  match tokens with
  | [] => .fail (.malformed keyword.stop .ifWithoutParen)
  | opening :: after =>
    if opening.kind = .openParen then
      match inside : enclosed crash (opening :: after) with
      | .error fault => .fail fault
      | .ok (condition, tail) =>
        have shorter := enclosed_shorter inside
        match tail with
        | [] => do
          let expr ← readCall crash (readWhole inner context.source) context.source context.scope
            "IF" condition
          return ⟨expr, [], nil_lt_cons opening after⟩
        | token :: rest =>
          if token.kind = .keyword .thenWord then
            if condition = [] then do
              let opening ← index crash (opening :: after) 0
              .fail (.malformed opening.start .ifWithoutCondition)
            else do
              let test ← readWhole inner context.source context.scope condition
              let step ← branches inner context test rest
              return step.widen (rest_le_of_cons_lt shorter)
          else do
            let expr ← readCall crash (readWhole inner context.source) context.source
              context.scope "IF" condition
            return ⟨expr, token :: rest, shorter⟩
    else .fail (.malformed keyword.stop .ifWithoutParen)

def primary (inner : Inner) : Reader := fun context tokens =>
  match tokens with
  | [] => .fail (.malformed context.stop .unexpectedEnd)
  | token :: rest =>
    match token.kind with
    | .number digits => return ⟨.number digits, rest, rest_lt_succ rest⟩
    | .string literal => return ⟨.text literal, rest, rest_lt_succ rest⟩
    | .openParen => do
      let step ← group inner context rest
      return step.widen (rest_le_cons token rest)
    | .openBracket => do
      let step ← listLiteral inner context rest
      return step.widen (rest_le_cons token rest)
    | .keyword .ifWord => do
      let step ← conditional crash inner context token rest
      return step.widen (rest_le_cons token rest)
    | .ident name => named crash inner context token name rest
    | kind => .fail (.malformed token.start (.unexpectedToken kind))

def power (inner : Inner) : Reader := fun context tokens => do
  let base ← primary crash inner context tokens
  match found : base.rest with
  | [] => return base
  | token :: rest =>
    if token.kind = .caret then do
      let exponent ← inner .signed context rest
      return ⟨.binary .power base.expr exponent.expr, exponent.rest,
        rest_lt_of_steps exponent found⟩
    else return base

def signed (inner : Inner) : Reader := fun context tokens =>
  match tokens with
  | [] => power crash inner context []
  | token :: rest =>
    if token.kind = .minus then do
      let operand ← inner .signed context rest
      return (operand.map .negate).widen (rest_le_cons token rest)
    else if token.kind = .plus then do
      let operand ← inner .signed context rest
      return operand.widen (rest_le_cons token rest)
    else power crash inner context (token :: rest)

def product (inner : Inner) : Reader :=
  leftAssociative Grammar.productOperator? (signed crash inner)

def sum (inner : Inner) : Reader := leftAssociative Grammar.sumOperator? (product crash inner)

def comparison (inner : Inner) : Reader := fun context tokens => do
  let left ← sum crash inner context tokens
  match found : left.rest with
  | [] => return left
  | token :: rest =>
    match Grammar.comparisonOperator? token.kind with
    | none => return left
    | some op => do
      let right ← sum crash inner context rest
      return ⟨.binary op left.expr right.expr, right.rest, rest_lt_of_steps right found⟩

def negation (inner : Inner) : Reader := fun context tokens =>
  match tokens with
  | [] => comparison crash inner context []
  | token :: rest =>
    if token.kind = .keyword .notWord then do
      let operand ← inner .negation context rest
      return (operand.map .not).widen (rest_le_cons token rest)
    else comparison crash inner context (token :: rest)

def conjunction (inner : Inner) : Reader :=
  leftAssociative Grammar.andOperator? (negation crash inner)

def disjunction (inner : Inner) : Reader :=
  leftAssociative Grammar.orOperator? (conjunction crash inner)

def readerAt : Nat → Inner
  | 0, _ => Grammar.tooDeep
  | levels + 1, .expression => disjunction crash (readerAt levels)
  | levels + 1, .negation => negation crash (readerAt levels)
  | levels + 1, .signed => signed crash (readerAt levels)

def parse (formula : String) : Traced Expr := do
  let tokens ← tokenize crash formula
  match tokens with
  | [] => return .null
  | tokens => readWhole (readerAt crash maxNesting) formula.toList .entity tokens

def compile (formula : String) : Traced Fragment := do
  let expr ← parse crash formula
  return expr.fragment

end Formulary.Checked
