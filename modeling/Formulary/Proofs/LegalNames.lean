import Mathlib
import Formulary.Proofs.Carried
import Formulary.Proofs.Code
import Formulary.Rulebook.Identifier

set_option autoImplicit false

namespace Formulary

namespace Code

/-- Whether a text of the formula is a numeral or a string literal. -/
def isLiteral (text : String) : Bool :=
  match text.toList with
  | [] => false
  | first :: _ => first.isDigit || first == '"' || first == '\''

/-- The names that code spells: members, parameters of keys and variables of comprehensions. -/
def names : Code → List String
  | fixed _ => []
  | spelled text => if isLiteral text then [] else [text]
  | receiver _ => []
  | append first second => first.names ++ second.names
  | element _ part => part.names
  | key parameter body => parameter :: body.names

@[simp] theorem names_fixed (text : String) : (fixed text).names = [] := rfl

@[simp] theorem names_receiver (found : Receiver) : (receiver found).names = [] := rfl

@[simp] theorem names_append (first second : Code) :
    (first ++ second).names = first.names ++ second.names := rfl

@[simp] theorem names_element (var : String) (part : Code) :
    (element var part).names = part.names := rfl

@[simp] theorem names_key (parameter : String) (body : Code) :
    (key parameter body).names = parameter :: body.names := rfl

theorem mem_names_spelled {word text : String} :
    word ∈ (spelled text).names ↔ word = text ∧ isLiteral word = false := by
  rw [names]
  split
  · rename_i literal
    simp only [List.not_mem_nil, false_iff]
    rintro ⟨rfl, name⟩
    rw [name] at literal
    cases literal
  · rename_i name
    rw [List.mem_singleton]
    constructor
    · rintro rfl
      exact ⟨rfl, by simpa using name⟩
    · exact And.left

/-- What a name is made of stands in the code. -/
theorem mem_text_of_mem_names {code : Code} {name : String} (member : name ∈ code.names) :
    ∀ c ∈ name.toList, c ∈ code.text.toList := by
  induction code with
  | fixed text => cases member
  | spelled text =>
    rw [(mem_names_spelled.1 member).1]
    exact fun c inside => inside
  | receiver found => cases member
  | append first second ihFirst ihSecond =>
    intro c inside
    rw [text, String.toList_append, List.mem_append]
    rcases List.mem_append.1 member with here | there
    · exact .inl (ihFirst here c inside)
    · exact .inr (ihSecond there c inside)
  | element var part ih => exact ih member
  | key parameter body ih =>
    intro c inside
    simp only [text, String.toList_append, List.mem_append]
    rcases List.mem_cons.1 member with rfl | later
    · exact .inl (.inl inside)
    · exact .inr (ih later c inside)

theorem names_commas (parts : List Code) : (commas parts).names = parts.flatMap names := by
  induction parts with
  | nil => rfl
  | cons part parts ih =>
    cases parts with
    | nil => simp [commas]
    | cons next parts => simp [commas, ih]

theorem names_binary (op : BinaryOp) (left right : Code) :
    (binary op left right).names = left.names ++ right.names := by
  simp [binary]

theorem names_negation (operand : Code) : (negation operand).names = operand.names := by
  unfold negation
  split <;> simp

theorem names_conditional (condition yes no : Code) :
    (conditional condition yes no).names = yes.names ++ condition.names ++ no.names := by
  simp [conditional]

theorem names_fill (arguments : List Code) (named : List (String × Code)) (template : Template) :
    (fill arguments named template).names =
      template.slots.flatMap fun wanted => (slot arguments named wanted).names := by
  induction template with
  | nil => rfl
  | cons piece rest ih => cases piece <;> simpa [fill, Template.slots] using ih

theorem names_indexAlong (target : Code) (axis : Int) (index : Code) :
    (indexAlong target axis index).names = target.names ++ index.names := by
  unfold indexAlong
  split <;> simp

theorem names_extreme (which : Extreme) (elements : Code) (parameter : String) (body : Code) :
    (extreme which elements parameter body).names =
      elements.names ++ parameter :: body.names := by
  simp [extreme]

theorem names_top (count elements : Code) (parameter : String) (body : Code) :
    (top count elements parameter body).names =
      elements.names ++ parameter :: body.names ++ count.names := by
  simp [top]

/-- The names in code that may be absent. -/
def optionNames (part : Option Code) : List String := part.toList.flatMap names

@[simp] theorem optionNames_none : optionNames none = [] := rfl

@[simp] theorem optionNames_some (code : Code) : optionNames (some code) = code.names := by
  simp [optionNames]

section Comprehensions

variable {word var : String} {value collection : Code} {predicate projection : Option Code}
  (other : word ≠ var)

include other

theorem not_mem_spelled : word ∉ (spelled var).names :=
  fun member => other (mem_names_spelled.1 member).1

theorem mem_names_generator :
    word ∈ (generator value var collection predicate).names ↔
      word ∈ value.names ++ collection.names ++ optionNames predicate := by
  have unbound := not_mem_spelled other
  cases predicate <;> simp [generator, unbound]

theorem mem_names_filtered :
    word ∈ (filtered var collection predicate).names ↔
      word ∈ collection.names ++ optionNames predicate := by
  cases predicate with
  | none => simp [filtered]
  | some test => simp [filtered, mem_names_generator other]

theorem mem_names_apply (function : String) :
    word ∈ (apply function var collection predicate projection).names ↔
      word ∈ collection.names ++ optionNames predicate ++ optionNames projection := by
  cases predicate <;> cases projection <;> simp [apply, mem_names_generator other] <;> tauto

theorem mem_names_count :
    word ∈ (Code.count var collection predicate projection).names ↔
      word ∈ collection.names ++ optionNames predicate ++ optionNames projection := by
  cases predicate <;> cases projection <;> simp [Code.count, mem_names_generator other]

theorem mem_names_any :
    word ∈ (any var collection predicate projection).names ↔
      word ∈ collection.names ++ optionNames predicate ++ optionNames projection := by
  cases predicate <;> cases projection <;> simp [any, mem_names_generator other] <;> tauto

theorem mem_names_reduction (reducer : Reducer) :
    word ∈ (reduction reducer var collection predicate projection).names ↔
      word ∈ collection.names ++ optionNames predicate ++ optionNames projection := by
  cases reducer with
  | count => exact mem_names_count other
  | sum => exact mem_names_apply other "sum"
  | mean => exact mem_names_apply other "statistics.mean"
  | mode => exact mem_names_apply other "statistics.mode"
  | «exists» => exact mem_names_any other

end Comprehensions

end Code

theorem Path.names_code (path : Path) :
    path.code.names = path.members.filter (!Code.isLiteral ·) := by
  obtain ⟨receiver, members⟩ := path
  have step (code : Code) (members : List String) :
      (members.foldl (fun code member => code ++ .fixed "." ++ .spelled member) code).names =
        code.names ++ members.filter (!Code.isLiteral ·) := by
    induction members generalizing code with
    | nil => simp
    | cons member members ih =>
      rw [List.foldl_cons, ih]
      cases literal : Code.isLiteral member <;> simp [Code.names, literal]
  exact step (.receiver receiver) members

/-- The names among tokens. -/
def words (tokens : List Token) : List String := tokens.filterMap fun token => token.kind.name?

@[simp] theorem words_nil : words [] = [] := rfl

@[simp] theorem words_append (first second : List Token) :
    words (first ++ second) = words first ++ words second := List.filterMap_append ..

theorem words_mark {token : Token} {tokens : List Token} (mark : token.kind.name? = none) :
    words (token :: tokens) = words tokens := List.filterMap_cons_none mark

theorem words_ident {token : Token} {tokens : List Token} {name : String}
    (kind : token.kind = .ident name) : words (token :: tokens) = name :: words tokens :=
  List.filterMap_cons_some (by rw [kind]; rfl)

theorem words_bracketed {opening closing : Token} {tokens : List Token}
    (opens : opening.kind.name? = none) (closes : closing.kind.name? = none) :
    words (opening :: (tokens ++ [closing])) = words tokens := by
  rw [words_mark opens, words_append, words_mark closes, words_nil, List.append_nil]

theorem mem_words_options {word : String} {tokens first second options : List Token}
    (order : options = first ++ second ∨ options = second ++ first) :
    word ∈ words (tokens ++ options) ↔ word ∈ words tokens ++ words first ++ words second := by
  rcases order with rfl | rfl <;> simp [or_comm]

theorem words_of_referenceNames? {tokens : List Token} {names : List String}
    (dotted : referenceNames? tokens = some names) : words tokens = names := by
  fun_induction referenceNames? tokens generalizing names with
  | case1 => cases dotted
  | case2 token =>
    obtain ⟨name, named, rfl⟩ := Option.map_eq_some_iff.1 dotted
    simp [words, named]
  | case3 token mark rest isMark ih =>
    obtain ⟨name, named, dotted⟩ := Option.bind_eq_some_iff.1 dotted
    obtain ⟨more, others, dotted⟩ := Option.bind_eq_some_iff.1 dotted
    cases dotted
    have noName : mark.kind.name? = none := by
      cases kind : mark.kind <;> rw [kind] at isMark <;> first | rfl | cases isMark
    simp only [words, List.filterMap_cons, named, noName]
    exact congrArg _ (ih others)
  | case4 => cases dotted

/-- How one word gets from the names that a part of a formula gives to those that its code spells:
it is spelled only if it is given and, if it is free to be, whenever it is given. -/
structure Passed (word : String) (free : Prop) (given names : List String) : Prop where
  only : word ∈ names → word ∈ given
  kept : free → word ∈ given → word ∈ names

namespace Passed

variable {word : String} {free : Prop} {given names : List String}

theorem nothing : Passed word free [] [] := ⟨id, fun _ => id⟩

theorem append {more others : List String} (first : Passed word free given names)
    (second : Passed word free more others) :
    Passed word free (given ++ more) (names ++ others) := by
  constructor
  · simpa only [List.mem_append] using Or.imp first.only second.only
  · intro isFree
    simpa only [List.mem_append] using Or.imp (first.kept isFree) (second.kept isFree)

/-- A name of the formula that is not a name of the code, because the formula knows it. -/
theorem known {name : String} (passed : Passed word free given names)
    (bound : free → word ≠ name) : Passed word free (name :: given) names := by
  refine ⟨fun member => List.mem_cons_of_mem name (passed.only member), fun isFree member => ?_⟩
  rcases List.mem_cons.1 member with same | later
  · exact absurd same (bound isFree)
  · exact passed.kept isFree later

/-- A name of the formula that is one of the code too, and that only other words have to avoid. -/
theorem cons {name : String} {others : Prop} (passed : Passed word others given names)
    (apart : free → word ≠ name → others) : Passed word free (name :: given) (name :: names) := by
  constructor
  · exact fun member => List.mem_cons.2 ((List.mem_cons.1 member).imp_right passed.only)
  · intro isFree member
    by_cases same : word = name
    · exact List.mem_cons.2 (.inl same)
    · have later := (List.mem_cons.1 member).resolve_left same
      exact List.mem_cons_of_mem name (passed.kept (apart isFree same) later)

theorem congr {more : List String} (passed : Passed word free given names)
    (same : word ∈ more ↔ word ∈ names) : Passed word free given more :=
  ⟨fun member => passed.only (same.1 member),
    fun isFree member => same.2 (passed.kept isFree member)⟩

theorem reorder {more : List String} (passed : Passed word free given names)
    (same : word ∈ more ↔ word ∈ given) : Passed word free more names :=
  ⟨fun member => same.2 (passed.only member),
    fun isFree member => passed.kept isFree (same.1 member)⟩

theorem weaken {fewer : Prop} (passed : Passed word free given names) (implies : fewer → free) :
    Passed word fewer given names :=
  ⟨passed.only, fun isFree => passed.kept (implies isFree)⟩

end Passed

/-- A reserved word of the host that is nothing but a name in a formula. -/
structure Foreign (word : String) : Prop where
  reserved : word ∈ reservedWords
  noKeyword : Keyword.ofWord? word = none
  noLiteral : Grammar.literal? word = none

theorem isLiteral_of_reserved :
    ∀ word ∈ reservedWords, Code.isLiteral word = false := by
  decide

theorem ne_this_of_reserved : ∀ word ∈ reservedWords, word ≠ "this" := by
  decide

theorem ne_self_of_reserved : ∀ word ∈ reservedWords, word ≠ "self" := by
  decide

theorem isAlpha_of_reserved : ∀ word ∈ reservedWords, word.toList.any Char.isAlpha = true := by
  decide

theorem argumentKey_of_reserved :
    ∀ word ∈ reservedWords, (Call.ArgumentKey.ofName? word).isNone = true := by
  decide_cbv

/-- No reserved word starts as the variable of a comprehension does. -/
theorem ne_nextVar_of_reserved {word : String} (reserved : word ∈ reservedWords) (scope : Scope) :
    word ≠ scope.nextVar := by
  have others : ∀ word ∈ reservedWords, word.toList.take 4 ≠ "item".toList := by decide
  have start : scope.nextVar.toList.take 4 = "item".toList := by
    rw [Scope.nextVar]
    split
    · rfl
    · rw [String.toList_append]
      rfl
  rintro rfl
  exact others _ reserved start

/-- The names that a formula can call. -/
def callables : List String :=
  Signature.table.map Signature.name ++
    ["COUNT", "SUM", "AVG", "MODE", "EXISTS", "MINBY", "MAXBY", "TOPN"]

theorem callable_of_reads {scope : Scope} {tokens : List Token} {name : String} {expr : Expr}
    (reads : Reads scope tokens (.arguments name expr)) :
    name.toList.map Char.toUpper ∈ callables.map String.toList := by
  have ofTable {signature : Signature} (found : Signature.lookup? name = some signature) :
      name.toList.map Char.toUpper ∈ callables.map String.toList := by
    have same : signature.name = name.toUpper := by simpa using List.find?_some found
    have spelled : signature.name.toList = name.toList.map Char.toUpper := by
      simp [same, String.toUpper]
    rw [← spelled, callables]
    exact List.mem_map_of_mem
      (List.mem_append_left _ (List.mem_map_of_mem (List.mem_of_find?_eq_some found)))
  cases reads with
  | positional found => exact ofTable found
  | overMember found => exact ofTable found
  | wholeArray found => exact ofTable found
  | alongAxis found => exact ofTable found
  | slice found => exact ofTable found
  | reduce known =>
    unfold Reducer.ofName? at known
    split at known <;> first | decide | cases known
  | extreme known => rcases known with ⟨rfl, -⟩ | ⟨rfl, -⟩ <;> decide
  | top => decide

/-- The only reserved word that can be called is a keyword of formulas too. -/
theorem Foreign.not_callable {word : String} (foreign : Foreign word) :
    word.toUpper.toList.map Char.toUpper ∉ callables.map String.toList := by
  have only : ∀ word ∈ reservedWords,
      (word.toList.map Char.toUpper).map Char.toUpper ∈ callables.map String.toList →
        word = "if" := by
    decide
  intro member
  rw [String.toUpper, String.toList_map] at member
  obtain rfl := only word foreign.reserved member
  have keyword : (Keyword.ofWord? "if").isSome = true := by decide_cbv
  rw [foreign.noKeyword] at keyword
  cases keyword

section References

variable {word : String} {free : Prop} {given : List String}

theorem Passed.spelled (name : String) :
    Passed word (word ∈ reservedWords) [name] (Code.spelled name).names := by
  refine ⟨fun member => List.mem_singleton.2 (Code.mem_names_spelled.1 member).1, ?_⟩
  intro reserved member
  exact Code.mem_names_spelled.2
    ⟨List.mem_singleton.1 member, isLiteral_of_reserved word reserved⟩

theorem Passed.path {path : Path} (passed : Passed word free given path.members)
    (reserved : free → word ∈ reservedWords) : Passed word free given path.code.names := by
  rw [path.names_code]
  refine ⟨fun member => passed.only (List.mem_of_mem_filter member), fun isFree member => ?_⟩
  have name := isLiteral_of_reserved word (reserved isFree)
  exact List.mem_filter.2 ⟨passed.kept isFree member, by simp [name]⟩

namespace Scope

/-- A reserved word that is not what bare names are members of. -/
def Frees (scope : Scope) (word : String) : Prop :=
  word ∈ reservedWords ∧ word ≠ scope.receiverText

variable {scope : Scope} {names : List String} {text : String}

/-- A reference loses its first name if that is the entity's or the parameter's. -/
theorem passed_resolve : Passed word (scope.Frees word) names (scope.resolve names).members := by
  unfold resolve
  split
  · exact .nothing
  · rename_i head rest
    have later : Passed word (scope.Frees word) rest rest := ⟨id, fun _ => id⟩
    split
    · rename_i this
      exact later.known fun isFree same => ne_this_of_reserved word isFree.1 (same.trans this)
    · split
      · rename_i bound
        have receiver : scope.receiver = .parameter head := by simpa [binds] using bound
        refine later.known fun isFree same => isFree.2 ?_
        rw [receiverText, receiver]
        exact same
      · exact ⟨id, fun _ => id⟩

theorem passed_value {path : Path} (resolved : scope.value names text = .ok path) :
    Passed word (scope.Frees word) names path.code.names := by
  rw [eq_resolve_of_value resolved]
  exact passed_resolve.path And.left

theorem passed_collection {collection : Collection}
    (resolved : scope.collection names text = .ok collection) (fresh : word ≠ scope.nextVar) :
    Passed word (scope.Frees word) names collection.code.names := by
  have whole : Passed word (scope.Frees word) names (scope.resolve names).code.names :=
    passed_resolve.path And.left
  rcases collection_cases resolved with rfl | ⟨member, field, parts, rfl⟩
  · exact whole
  · refine whole.congr ?_
    have unbound := Code.not_mem_spelled fresh
    rw [Path.names_code, parts]
    simp [Collection.code, Path.names_code, unbound, Code.mem_names_spelled, or_and_right,
      or_comm]

end Scope

end References

/-- An axis that is given as a number is written with digits, and maybe a sign in front. -/
theorem signed_of_literalAxis? {axis : String} {number : Int}
    (literal : literalAxis? axis = some number) :
    ∃ sign digits, axis.toList = sign ++ digits ∧ (sign = [] ∨ sign = ['-'] ∨ sign = ['+']) ∧
      Text.IsDigits digits := by
  have natural {cs : List Char} (whole : Text.natural? cs ≠ none) : Text.IsDigits cs := by
    unfold Text.natural? at whole
    split at whole
    · rename_i digits
      exact digits
    · exact absurd rfl whole
  unfold literalAxis? Text.boundedInteger? at literal
  split at literal
  · rename_i rest spelled
    exact ⟨['-'], rest, spelled, by simp, natural fun empty => by simp [empty] at literal⟩
  · rename_i rest spelled
    exact ⟨['+'], rest, spelled, by simp, natural fun empty => by simp [empty] at literal⟩
  · exact ⟨[], axis.toList, rfl, by simp, natural fun empty => by simp [empty] at literal⟩

/-- A number has no letters. -/
theorem isAlpha_of_literalAxis? {axis : String} {number : Int}
    (literal : literalAxis? axis = some number) : axis.toList.any Char.isAlpha = false := by
  obtain ⟨sign, digits, spelled, isSign, natural⟩ := signed_of_literalAxis? literal
  have unsigned : digits.any Char.isAlpha = false := by
    rw [List.any_eq_false]
    intro c member letter
    have start : Lexeme.isWordStart c = true := by simp [Lexeme.isWordStart, letter]
    have digit := List.all_eq_true.1 natural.2 c member
    rw [(Lexeme.isWordStart_bounds start).1] at digit
    cases digit
  rw [spelled, List.any_append, unsigned]
  rcases isSign with rfl | rfl | rfl <;> rfl

theorem not_mem_of_literalAxis? {word : String} {axis : Code} {number : Int}
    (reserved : word ∈ reservedWords) (literal : literalAxis? axis.text = some number) :
    word ∉ axis.names := by
  intro member
  obtain ⟨c, inside, letter⟩ := List.any_eq_true.1 (isAlpha_of_reserved word reserved)
  have digits := List.any_eq_false.1 (isAlpha_of_literalAxis? literal)
  exact digits c (Code.mem_text_of_mem_names member c inside) letter

namespace Signature

variable {name word member var : String} {signature : Signature} {free : Prop}
  {a b c : List String} {target axis index collection : Code}

theorem mem_names_fill (found : lookup? name = some signature)
    (shape : signature.shape = .positional ∨ signature.shape = .buildingBlock)
    {arguments : List Code} (arity : signature.arity.accepts arguments.length = true) :
    word ∈ (Code.fill arguments [] signature.template).names ↔
      word ∈ arguments.flatMap Code.names := by
  obtain ⟨-, once⟩ := placesOnce_of_mem signature (List.mem_of_find?_eq_some found) shape
  rw [Code.names_fill]
  rcases slots_of_placesOnce once arity with all | permuted
  · simp [all, Code.slot, Code.names_commas]
  · rw [(permuted.flatMap_right _).mem_iff]
    simp only [List.mem_flatMap, List.mem_map, List.mem_range]
    constructor
    · rintro ⟨_, ⟨place, inside, rfl⟩, member⟩
      refine ⟨arguments[place], List.getElem_mem inside, ?_⟩
      simpa [Code.slot, inside] using member
    · rintro ⟨argument, given, member⟩
      obtain ⟨place, inside, rfl⟩ := List.getElem_of_mem given
      exact ⟨.argument place, ⟨place, inside, rfl⟩, by simpa [Code.slot, inside] using member⟩

theorem names_overMember (found : lookup? name = some signature)
    (shape : signature.shape = .collectionField) :
    (Code.overMember signature collection member var).names =
      (Code.spelled member).names ++ collection.names := by
  have zero : Slot.ofKey "0" = .argument 0 := by decide
  have one : Slot.ofKey "1" = .argument 1 := by decide
  have bound : Slot.ofKey "var" = .named "var" := by decide
  rcases template_of_collectionField signature (List.mem_of_find?_eq_some found) shape with
    same | same <;>
  simp [Code.overMember, same, overMember, Code.names_fill, Template.slots, zero, one, bound,
    Code.slot, List.lookup]

theorem names_alongAxis {along : Option Code} (found : lookup? name = some signature)
    (shape : signature.shape = .axisKeyword) :
    (Code.alongAxis signature target along).names = target.names ++ Code.optionNames along := by
  have zero : Slot.ofKey "0" = .argument 0 := by decide
  have key : Slot.ofKey "axis" = .named "axis" := by decide
  have template := template_of_axisKeyword signature (List.mem_of_find?_eq_some found) shape
  cases along <;>
  simp [Code.alongAxis, template, Code.names_fill, Template.slots, zero, key, Code.slot,
    List.lookup]

theorem passed_slice (found : lookup? name = some signature)
    (shape : signature.shape = .sliceKeywords) (reserved : free → word ∈ reservedWords)
    (array : Passed word free a target.names) (along : Passed word free b axis.names)
    (place : Passed word free c index.names) :
    Passed word free (a ++ b ++ c) (Code.slice signature target axis index).names := by
  unfold Code.slice
  split
  · rename_i number literal
    -- The code has no trace of the axis, and the axis had no names.
    have unnamed : Passed word free b [] := by
      refine ⟨nofun, fun isFree member => ?_⟩
      exact absurd (along.kept isFree member)
        (not_mem_of_literalAxis? (reserved isFree) literal)
    rw [Code.names_indexAlong]
    simpa using (array.append unnamed).append place
  · have zero : Slot.ofKey "0" = .argument 0 := by decide
    have first : Slot.ofKey "axis" = .named "axis" := by decide
    have second : Slot.ofKey "index" = .named "index" := by decide
    refine ((array.append along).append place).congr ?_
    rw [template_of_sliceKeywords signature (List.mem_of_find?_eq_some found) shape]
    simp [Code.names_fill, Template.slots, zero, first, second, Code.slot, List.lookup, or_comm]

end Signature

theorem Code.isLiteral_of_isNumeral {digits : String} (numeral : Text.IsNumeral digits.toList) :
    isLiteral digits = true := by
  obtain ⟨whole, fraction, scale, spelled, ⟨nonempty, natural⟩, -⟩ := numeral
  cases whole with
  | nil => exact absurd rfl nonempty
  | cons first rest =>
    have digit := List.all_eq_true.1 natural first (by simp)
    simp [isLiteral, spelled, digit]

theorem Code.isLiteral_of_isQuoted {literal : String} (quoted : Text.IsQuoted literal.toList) :
    isLiteral literal = true := by
  obtain ⟨quote, body, spelled, isQuote, -⟩ := quoted
  rcases isQuote with rfl | rfl <;> simp [isLiteral, spelled]

/-- The names that the code of a reading spells. -/
def Reading.names : Reading → List String
  | .items exprs => (Expr.codeAll exprs).flatMap Code.names
  | .collection expr => expr.code.names
  | .clause _ expr => Code.optionNames (Expr.codeOption expr)
  | .source expr predicate => expr.code.names ++ Code.optionNames (Expr.codeOption predicate)
  | .key parameter expr => parameter :: expr.code.names
  | .keyword _ expr => expr.code.names
  | .arguments _ expr => expr.code.names

@[simp] theorem Reading.names_item (expr : Expr) :
    (Reading.items [expr]).names = expr.code.names := by
  simp [names, Expr.codeAll]

theorem length_codeAll (exprs : List Expr) : (Expr.codeAll exprs).length = exprs.length := by
  induction exprs with
  | nil => rfl
  | cons expr exprs ih => simp [Expr.codeAll, ih]

theorem names_of_literal? {name : String} {expr : Expr}
    (known : Grammar.literal? name = some expr) : expr.code.names = [] := by
  unfold Grammar.literal? at known
  split at known <;> cases known <;> rfl

theorem name?_of_infixOperator? {kind : Kind} {op : BinaryOp}
    (known : infixOperator? kind = some op) : kind.name? = none := by
  cases kind <;> first | rfl | cases known

/-- A word that a formula takes for a name, other than what bare names are members of. -/
def Scope.IsFree (scope : Scope) (word : String) : Prop :=
  Foreign word ∧ word ≠ scope.receiverText

theorem Scope.IsFree.frees {scope : Scope} {word : String} (isFree : scope.IsFree word) :
    scope.Frees word :=
  ⟨isFree.1.reserved, isFree.2⟩

namespace Reading

section Rules

variable {word : String} {free : Prop} {scope : Scope} {name : String}
  {head opening closing token comma : Token} {tokens : List Token} {expr : Expr}

/-- Expressions between brackets have the names of a list of them. -/
theorem passed_bracketed {exprs : List Expr} (opens : opening.kind.name? = none)
    (closes : closing.kind.name? = none) (same : expr.code.names = (items exprs).names)
    (inner : Passed word free (words tokens) (items exprs).names) :
    Passed word free (words (opening :: tokens ++ [closing])) (items [expr]).names := by
  rw [List.cons_append, words_bracketed opens closes, names_item, same]
  exact inner

theorem passed_conditional {ifToken thenToken elseToken : Token}
    {before behind : List Token} {yes no : Expr} (isIf : ifToken.kind = .keyword .ifWord)
    (opens : opening.kind = .openParen) (closes : closing.kind = .closeParen)
    (isThen : thenToken.kind = .keyword .thenWord) (isElse : elseToken.kind = .keyword .elseWord)
    (test : Passed word free (words tokens) (items [expr]).names)
    (first : Passed word free (words before) (items [yes]).names)
    (second : Passed word free (words behind) (items [no]).names) :
    Passed word free
      (words (ifToken :: opening :: (tokens ++ closing :: thenToken ::
        (before ++ elseToken :: behind))))
      (items [.conditional expr yes no]).names := by
  have parts := (test.append first).append second
  simp only [names_item] at parts ⊢
  rw [words_mark (by rw [isIf]; rfl), words_mark (by rw [opens]; rfl), words_append,
    words_mark (by rw [closes]; rfl), words_mark (by rw [isThen]; rfl), words_append,
    words_mark (by rw [isElse]; rfl), ← List.append_assoc]
  refine parts.congr ?_
  simp [Expr.code, Code.names_conditional, or_left_comm]

/-- The name of a function is one that the formula knows. -/
theorem passed_call (kind : calledName? head.kind = some name) (opens : opening.kind = .openParen)
    (closes : closing.kind = .closeParen)
    (inside : Reads scope tokens (arguments name.toUpper expr)) (foreign : free → Foreign word)
    (inner : Passed word free (words tokens) (arguments name.toUpper expr).names) :
    Passed word free (words (head :: opening :: (tokens ++ [closing]))) (items [expr]).names := by
  have callable := callable_of_reads inside
  have within : words (opening :: (tokens ++ [closing])) = words tokens :=
    words_bracketed (by rw [opens]; rfl) (by rw [closes]; rfl)
  rw [names_item]
  cases called : head.kind with
  | ident spelling =>
    rw [called] at kind
    cases kind
    rw [words_ident called, within]
    refine Passed.known inner fun isFree same => ?_
    rw [← same] at callable
    exact (foreign isFree).not_callable callable
  | _ =>
    rw [words_mark (by rw [called]; rfl), within]
    exact inner

theorem passed_overMember {signature : Signature} {member var : String}
    (found : Signature.lookup? name = some signature) (shape : signature.shape = .collectionField)
    (kind : comma.kind = .comma) (named : token.kind = .ident member)
    (foreign : free → Foreign word)
    (source : Passed word free (words tokens) (items [expr]).names) :
    Passed word free (words (tokens ++ [comma, token]))
      (arguments name (.overMember signature expr member var)).names := by
  have field : Passed word free [member] (Code.spelled member).names :=
    (Passed.spelled member).weaken fun isFree => (foreign isFree).reserved
  rw [names_item] at source
  rw [words_append, words_mark (by rw [kind]; rfl), words_ident named]
  refine (source.append field).congr ?_
  simp [names, Expr.code, Signature.names_overMember found shape, or_comm]

/-- The word in front of the value is one that the formula knows. -/
theorem passed_keyword {keyWord sign : Token} {spelled : String} {key : Call.ArgumentKey}
    (kind : comma.kind = .comma) (named : keyWord.kind = .ident spelled)
    (known : Call.ArgumentKey.ofName? spelled = some key) (equals : sign.kind = .equal)
    (foreign : free → Foreign word) (inner : Passed word free (words tokens) (items [expr]).names) :
    Passed word free (words (comma :: keyWord :: sign :: tokens)) (keyword key expr).names := by
  rw [names_item] at inner
  rw [words_mark (by rw [kind]; rfl), words_ident named, words_mark (by rw [equals]; rfl)]
  refine Passed.known inner fun isFree same => ?_
  have unknown := argumentKey_of_reserved word (foreign isFree).reserved
  rw [same, known] at unknown
  cases unknown

end Rules

end Reading

/-- The names of a formula get into its code, one by one: by induction over the rules. The word is
no variable, so that all variables can be left out of account. -/
theorem passed_of_reads {word : String} (fresh : ∀ scope : Scope, word ≠ scope.nextVar)
    {scope : Scope} {tokens : List Token} {reading : Reading} (reads : Reads scope tokens reading)
    (spelled : Spelled tokens) : Passed word (scope.IsFree word) (words tokens) reading.names := by
  -- In a clause bare names are members of the variable, so a word that is free stays so; in a key
  -- they are members of the parameter, which is itself a name of the code.
  have inClause {scope : Scope} (isFree : scope.IsFree word) :
      (scope.element scope.nextVar).IsFree word := ⟨isFree.1, fresh scope⟩
  induction reads with
  | number kind =>
    rw [spelled_cons, kind] at spelled
    have literal := Code.isLiteral_of_isNumeral spelled.1
    rw [Reading.names_item, words_mark (by rw [kind]; rfl), Expr.code, Code.names, if_pos literal]
    exact .nothing
  | text kind =>
    rw [spelled_cons, kind] at spelled
    have literal := Code.isLiteral_of_isQuoted spelled.1
    rw [Reading.names_item, words_mark (by rw [kind]; rfl), Expr.code, Code.names, if_pos literal]
    exact .nothing
  | literal kind known =>
    rw [Reading.names_item, words_ident kind, names_of_literal? known]
    refine Passed.nothing.known fun isFree same => ?_
    rw [← same, isFree.1.noLiteral] at known
    cases known
  | reference dotted resolved =>
    rw [Reading.names_item, words_of_referenceNames? dotted]
    exact (Scope.passed_value resolved).weaken Scope.IsFree.frees
  | group opens closes inside ih =>
    simp only [spelled_cons, spelled_append, List.cons_append] at spelled
    exact Reading.passed_bracketed (by rw [opens]; rfl) (by rw [closes]; rfl)
      (Reading.names_item _).symm (ih spelled.2.1)
  | tuple opens closes inside several ih =>
    simp only [spelled_cons, spelled_append, List.cons_append] at spelled
    exact Reading.passed_bracketed (by rw [opens]; rfl) (by rw [closes]; rfl)
      (by simp [Expr.code, Reading.names, Code.names_commas]) (ih spelled.2.1)
  | list opens closes inside ih =>
    simp only [spelled_cons, spelled_append, List.cons_append] at spelled
    exact Reading.passed_bracketed (by rw [opens]; rfl) (by rw [closes]; rfl)
      (by simp [Expr.code, Reading.names, Code.names_commas]) (ih spelled.2.1)
  | nothing => exact .nothing
  | more first kind others ihFirst ihOthers =>
    simp only [spelled_cons, spelled_append] at spelled
    have head := ihFirst spelled.1
    have tail := ihOthers spelled.2.2
    rw [Reading.names_item] at head
    rw [words_append, words_mark (by rw [kind]; rfl)]
    exact head.append tail
  | not kind operand ih | negate kind operand ih | positive kind operand ih =>
    have inner := ih (spelled_cons.1 spelled).2
    rw [words_mark (by rw [kind]; rfl)]
    simpa [Expr.code, Code.names_negation] using inner
  | binary kind first second ihFirst ihSecond =>
    simp only [spelled_cons, spelled_append] at spelled
    have left := ihFirst spelled.1
    have right := ihSecond spelled.2.2
    rw [words_append, words_mark (name?_of_infixOperator? kind)]
    simpa [Expr.code, Code.names_binary] using left.append right
  | conditional isIf opens closes isThen isElse test first second ihTest ihFirst ihSecond =>
    simp only [spelled_cons, spelled_append] at spelled
    obtain ⟨-, -, insideTest, -, -, insideFirst, -, insideSecond⟩ := spelled
    exact Reading.passed_conditional isIf opens closes isThen isElse (ihTest insideTest)
      (ihFirst insideFirst) (ihSecond insideSecond)
  | call kind opens closes inside ih =>
    simp only [spelled_cons, spelled_append] at spelled
    exact Reading.passed_call kind opens closes inside And.left (ih spelled.2.2.1)
  | @positional scope name signature tokens exprs found _ shape arity parts ih =>
    have same := @Signature.mem_names_fill name word signature found shape (Expr.codeAll exprs)
      (by rwa [length_codeAll])
    exact (ih spelled).congr same
  | overMember found _ shape collection kind named ih =>
    exact Reading.passed_overMember found shape kind named And.left
      (ih (spelled_append.1 spelled).1)
  | keyword kind named known equals given ih =>
    simp only [spelled_cons] at spelled
    exact Reading.passed_keyword kind named known equals And.left (ih spelled.2.2.2)
  | wholeArray found _ shape target ih =>
    have array := ih spelled
    simpa [Reading.names, Expr.code, Expr.codeAll, Expr.codeOption,
      Signature.names_alongAxis found shape] using array
  | alongAxis found _ shape target given ihTarget ihGiven =>
    have parts := (ihTarget (spelled_append.1 spelled).1).append
      (ihGiven (spelled_append.1 spelled).2)
    simpa [Reading.names, Expr.code, Expr.codeAll, Expr.codeOption,
      Signature.names_alongAxis found shape] using parts
  | @slice scope name signature tokens first second options expr axis index found _ shape inRange
      target along place order ihTarget ihAlong ihPlace =>
    obtain ⟨front, options⟩ := spelled_append.1 spelled
    have both : Spelled first ∧ Spelled second := forall_options order options
    have array := ihTarget front
    rw [Reading.names_item] at array
    have code := Signature.passed_slice found shape (fun isFree => isFree.1.reserved) array
      (ihAlong both.1) (ihPlace both.2)
    exact code.reorder (mem_words_options order)
  | receiver => exact .nothing
  | @named scope tokens names collection text dotted resolved =>
    rw [words_of_referenceNames? dotted]
    exact (Scope.passed_collection resolved (fresh scope)).weaken Scope.IsFree.frees
  | computed given _ ih =>
    have inner := ih spelled
    rwa [Reading.names_item] at inner
  | absent => exact .nothing
  | @present scope mark token tokens expr kind given ih =>
    have inner := ih (spelled_cons.1 spelled).2
    have noName : token.kind.name? = none := by
      rw [kind]
      cases mark <;> rfl
    rw [words_mark noName]
    simpa [Reading.names, Expr.codeOption, Expr.codeAll] using inner
  | @reduce scope name reducer before middle behind collection predicate projection known source
      test value _ ihSource ihTest ihValue =>
    simp only [spelled_append] at spelled
    have tests := (ihTest spelled.1.2).weaken inClause
    have values := (ihValue spelled.2).weaken inClause
    rw [words_append, words_append]
    exact (((ihSource spelled.1.1).append tests).append values).congr
      (Code.mem_names_reduction (fresh scope) reducer)
  | ownSource => exact .nothing
  | @givenSource scope comma before behind collection predicate source test kind _ ihSource
      ihTest =>
    simp only [spelled_append] at spelled
    have tests := (ihTest spelled.1.2).weaken inClause
    rw [words_append, words_append, words_mark (by rw [kind]; rfl), words_nil, List.append_nil]
    exact (ihSource spelled.1.1).append tests
  | @key scope parameter arrow tokens name expr named kind body ih =>
    simp only [spelled_cons] at spelled
    have inner := ih spelled.2.2
    rw [Reading.names_item] at inner
    rw [words_ident named, words_mark (by rw [kind]; rfl)]
    exact inner.cons fun isFree other => ⟨isFree.1, other⟩
  | @extreme scope name parameter which before behind collection body predicate known source chosen
      ihSource ihChosen =>
    simp only [spelled_append] at spelled
    rw [words_append]
    refine ((ihSource spelled.1).append (ihChosen spelled.2)).congr ?_
    simp [Reading.names, Expr.code, Code.names_extreme, Code.mem_names_filtered (fresh scope),
      or_assoc]
  | @top scope parameter comma first before behind count collection body predicate number kind
      source chosen ihNumber ihSource ihChosen =>
    simp only [spelled_append, spelled_cons] at spelled
    have parts := ((ihSource spelled.2.2.1).append (ihChosen spelled.2.2.2)).append
      (ihNumber spelled.1)
    rw [words_append, words_mark (by rw [kind]; rfl), words_append]
    refine (parts.reorder List.perm_append_comm.mem_iff).congr ?_
    simp [Reading.names, Expr.code, Expr.codeAll, Code.names_top,
      Code.mem_names_filtered (fresh scope), or_assoc]

theorem isNameText_of_isWord {cs : List Char} (word : Text.IsWord cs) : isNameText cs = true := by
  obtain ⟨first, rest, rfl, start, parts⟩ := word
  rw [isNameText, Bool.and_eq_true]
  exact ⟨start, List.all_eq_true.2 parts⟩

/-- Names that can be spelled in the host are legal unless one is reserved. -/
theorem legal_iff {names : List String} (named : ∀ name ∈ names, Text.IsWord name.toList) :
    (∀ name ∈ names, isIdentifier name = true) ↔ ∀ word ∈ reservedWords, word ∉ names := by
  have each (name : String) (member : name ∈ names) :
      isIdentifier name = true ↔ name ∉ reservedWords := by
    simp [isIdentifier, isNameText_of_isWord (named name member)]
  constructor
  · intro legal word reserved member
    exact (each word member).1 (legal word member) reserved
  · intro apart name member
    exact (each name member).2 fun reserved => apart name reserved member

theorem exists_token_of_mem_words {tokens : List Token} {name : String}
    (member : name ∈ words tokens) : ∃ token ∈ tokens, token.kind = .ident name := by
  obtain ⟨token, inside, named⟩ := List.mem_filterMap.1 member
  refine ⟨token, inside, ?_⟩
  cases kind : token.kind <;> rw [kind] at named <;> cases named
  rfl

theorem isWord_of_mem_words {tokens : List Token} (spelled : Spelled tokens) {name : String}
    (member : name ∈ words tokens) : Text.IsWord name.toList := by
  obtain ⟨token, inside, kind⟩ := exists_token_of_mem_words member
  have named := spelled token inside
  rw [kind] at named
  exact named.1

/-- The names of a formula are none of its keywords. -/
theorem ofWord?_of_mem_words {formula : String} {tokens : List Token}
    (lexed : tokenize formula = .ok tokens) {name : String} (member : name ∈ words tokens) :
    Keyword.ofWord? name = none := by
  obtain ⟨token, inside, kind⟩ := exists_token_of_mem_words member
  have unreserved := @tokensFrom_forall
    (fun kind => ∀ name, kind = .ident name → Keyword.ofWord? name = none)
    (fun found _ => Lexeme.ofWord?_of_ident found) 0 formula.toList tokens lexed
  exact unreserved token inside name kind

/-- Names that all come from tokens or from the writer can be spelled in the host. -/
theorem isWord_of_passed {tokens : List Token} (spelled : Spelled tokens) {names : List String}
    {free : String → Prop} (passed : ∀ word, (∀ scope : Scope, word ≠ scope.nextVar) →
      Passed word (free word) (words tokens) names) :
    ∀ name ∈ names, Text.IsWord name.toList := by
  intro name member
  by_cases fresh : ∀ scope : Scope, name ≠ scope.nextVar
  · exact isWord_of_mem_words spelled ((passed name fresh).only member)
  · simp only [not_forall, not_not] at fresh
    obtain ⟨scope, rfl⟩ := fresh
    exact scope.named_nextVar.1

theorem passed_of_parse {formula : String} {tokens : List Token}
    (lexed : tokenize formula = .ok tokens) {expr : Expr}
    (accepted : (Formula.parse formula).result = .ok expr) {word : String}
    (fresh : ∀ scope : Scope, word ≠ scope.nextVar) :
    Passed word (Scope.entity.IsFree word) (words tokens) expr.code.names := by
  obtain ⟨found, again, reading⟩ := Formula.reads_of_parse accepted
  rw [lexed] at again
  cases again
  rcases reading with ⟨rfl, rfl⟩ | reads
  · exact .nothing
  · have passed := passed_of_reads fresh reads (tokenize_spelled lexed)
    rwa [Reading.names_item] at passed

theorem passed_of_joinCollection {condition : String} {tokens : List Token}
    (lexed : tokenize condition = .ok tokens) {collection : Collection}
    (joined : joinCollection condition = .ok collection) {word : String}
    (fresh : ∀ scope : Scope, word ≠ scope.nextVar) :
    Passed word (Scope.entity.Frees word) (words tokens) collection.code.names := by
  unfold joinCollection at joined
  rw [lexed] at joined
  simp only [bind, Except.bind] at joined
  split at joined
  · rename_i names dotted
    rw [words_of_referenceNames? dotted]
    split at joined
    · exact Scope.passed_collection joined (fresh .entity)
    · cases joined
    · cases joined
  · cases joined

/-- All names in the code of an accepted formula are legal in the host if and only if every reserved
word among the names of the formula is one that the formula takes for a literal, and takes for
nothing else. All names in the code of a join are if and only if the join has no reserved word. -/
theorem names_legal_iff {text : String} {tokens : List Token}
    (lexed : tokenize text = .ok tokens) :
    (∀ expr, (Formula.parse text).result = .ok expr →
      (Formula.compile text).result = .ok ⟨expr.code.text, expr.needs⟩ ∧
        ((∀ name ∈ expr.code.names, isIdentifier name = true) ↔
          ∀ word ∈ words tokens, word ∈ reservedWords →
            (Grammar.literal? word).isSome = true ∧ word ∉ expr.code.names)) ∧
    ∀ collection, joinCollection text = .ok collection →
      collection.render = collection.code.text ∧
        ((∀ name ∈ collection.code.names, isIdentifier name = true) ↔
          ∀ word ∈ words tokens, word ∉ reservedWords) := by
  refine ⟨fun expr accepted => ⟨?_, ?_⟩, fun collection joined => ⟨?_, ?_⟩⟩
  · rw [expr.text_code]
    exact Formula.compile_eq_ok.2 ⟨expr, accepted, rfl⟩
  · rw [legal_iff (isWord_of_passed (tokenize_spelled lexed)
      fun _ fresh => passed_of_parse lexed accepted fresh)]
    constructor
    · intro absent word given reserved
      refine ⟨?_, absent word reserved⟩
      by_contra literal
      have foreign : Foreign word :=
        ⟨reserved, ofWord?_of_mem_words lexed given, by simpa using literal⟩
      have isFree : Scope.entity.IsFree word := ⟨foreign, ne_self_of_reserved word reserved⟩
      have passed := passed_of_parse lexed accepted (ne_nextVar_of_reserved reserved)
      exact absent word reserved (passed.kept isFree given)
    · intro apart word reserved member
      have passed := passed_of_parse lexed accepted (ne_nextVar_of_reserved reserved)
      exact (apart word (passed.only member) reserved).2 member
  · exact collection.text_code.symm
  · rw [legal_iff (isWord_of_passed (tokenize_spelled lexed)
      fun _ fresh => passed_of_joinCollection lexed joined fresh)]
    constructor
    · intro absent word given reserved
      have isFree : Scope.entity.Frees word := ⟨reserved, ne_self_of_reserved word reserved⟩
      have passed := passed_of_joinCollection lexed joined (ne_nextVar_of_reserved reserved)
      exact absent word reserved (passed.kept isFree given)
    · intro apart word reserved member
      have passed := passed_of_joinCollection lexed joined (ne_nextVar_of_reserved reserved)
      exact apart word (passed.only member) reserved

/-- A reserved word as a parameter, one that is only a literal, and one as the field of a join. -/
theorem names_legal_reserved :
    (∃ expr, (Formula.parse "MAXBY(xs, class => class.x)").result = .ok expr ∧
      expr.code.text = "max(self.xs, key=lambda class: class.x)" ∧
      ¬∀ name ∈ expr.code.names, isIdentifier name = true) ∧
    (∃ expr, (Formula.parse "x = None").result = .ok expr ∧
      expr.code.text = "(self.x is None)" ∧
      ∀ name ∈ expr.code.names, isIdentifier name = true) ∧
    ∃ collection, joinCollection "this.edges.class" = .ok collection ∧
      collection.render = "[item.class for item in self.edges]" ∧
      ¬∀ name ∈ collection.code.names, isIdentifier name = true := by
  have read :
      (Formula.parse "MAXBY(xs, class => class.x)").result.toOption.any (fun expr =>
        expr.code.text = "max(self.xs, key=lambda class: class.x)") = true ∧
      (Formula.parse "x = None").result.toOption.any (fun expr =>
        expr.code.text = "(self.x is None)" ∧ expr.code.names = ["x"]) = true := by
    decide +kernel
  simp only [Option.any_eq_true, decide_eq_true_eq] at read
  obtain ⟨⟨key, first, keyText⟩, literal, second, literalText, literalNames⟩ := read
  have keyTokens : tokenize "MAXBY(xs, class => class.x)" =
      .ok [⟨.ident "MAXBY", 0, 5⟩, ⟨.openParen, 5, 6⟩, ⟨.ident "xs", 6, 8⟩, ⟨.comma, 8, 9⟩,
        ⟨.ident "class", 10, 15⟩, ⟨.fatArrow, 16, 18⟩, ⟨.ident "class", 19, 24⟩, ⟨.dot, 24, 25⟩,
        ⟨.ident "x", 25, 26⟩, ⟨.closeParen, 26, 27⟩] := by
    cbv
  have literalTokens : tokenize "x = None" =
      .ok [⟨.ident "x", 0, 1⟩, ⟨.equal, 2, 3⟩, ⟨.ident "None", 4, 8⟩] := by
    cbv
  have joinTokens : tokenize "this.edges.class" =
      .ok [⟨.ident "this", 0, 4⟩, ⟨.dot, 4, 5⟩, ⟨.ident "edges", 5, 10⟩, ⟨.dot, 10, 11⟩,
        ⟨.ident "class", 11, 16⟩] := by
    cbv
  have joined : joinCollection "this.edges.class" =
      .ok (.projected ⟨.entity, ["edges"]⟩ "class" "item") := by
    cbv
  have isLiteral : (Grammar.literal? "None").isSome = true := by decide_cbv
  have noLiteral : ¬(Grammar.literal? "class").isSome = true := by decide_cbv
  refine ⟨⟨key, eq_ok_of_toOption first, keyText, fun legal => ?_⟩,
    ⟨literal, eq_ok_of_toOption second, literalText, ?_⟩, _, joined, rfl, fun legal => ?_⟩
  · have same := ((names_legal_iff keyTokens).1 _ (eq_ok_of_toOption first)).2
    exact noLiteral (same.1 legal "class" (by decide) (by decide)).1
  · have same := ((names_legal_iff literalTokens).1 _ (eq_ok_of_toOption second)).2
    have given : words [⟨.ident "x", 0, 1⟩, ⟨.equal, 2, 3⟩, ⟨.ident "None", 4, 8⟩] =
      ["x", "None"] := rfl
    rw [same, given, literalNames]
    simp only [List.forall_mem_cons, List.not_mem_nil, false_implies, implies_true, and_true]
    exact ⟨fun reserved => absurd reserved (by decide), fun _ => ⟨isLiteral, by decide⟩⟩
  · have same := ((names_legal_iff joinTokens).2 _ joined).2
    exact same.1 legal "class" (by decide) (by decide)

end Formulary
