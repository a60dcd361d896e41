import Mathlib
import Formulary.Proofs.Passes
import Formulary.Proofs.Reading

set_option autoImplicit false

namespace Formulary

/-- A word other than THEN. -/
def Named (name : String) : Prop := Text.IsWord name.toList ∧ isThen name.toList = false

/-- The text in a token is one that the lexer takes for its kind, and no keyword is a name. -/
def Kind.Spelled : Kind → Prop
  | .ident name => Named name
  | kind => kind.Lexed

/-- Tokens that all hold what the lexer takes for their kinds. -/
def Spelled (tokens : List Token) : Prop := ∀ token ∈ tokens, token.kind.Spelled

@[simp] theorem spelled_cons {token : Token} {tokens : List Token} :
    Spelled (token :: tokens) ↔ token.kind.Spelled ∧ Spelled tokens := List.forall_mem_cons

@[simp] theorem spelled_append {first second : List Token} :
    Spelled (first ++ second) ↔ Spelled first ∧ Spelled second := List.forall_mem_append

theorem Lexeme.read?_spelled {cs : List Char} {lexeme : Lexeme}
    (found : Lexeme.read? cs = some lexeme) : lexeme.kind.Spelled := by
  have lexed := Lexeme.read?_lexed found
  cases kind : lexeme.kind with
  | ident name =>
    rw [kind] at lexed
    exact ⟨lexed, Lexeme.not_isThen_of_ident found kind⟩
  | _ =>
    rw [kind] at lexed
    exact lexed

theorem tokenize_spelled {formula : String} {tokens : List Token}
    (success : tokenize formula = .ok tokens) : Spelled tokens :=
  tokensFrom_forall Lexeme.read?_spelled success

theorem Named.carries {name : String} (named : Named name) : Carries name 0 := by
  rintro place rfl
  obtain ⟨⟨first, rest, spelled, start, parts⟩, other⟩ := named
  have steps : Sweep.gap.step first = some (.word [first], []) := by
    simp [Sweep.step, Sweep.extend, Lexeme.isWordPart_of_isWordStart start,
      (Lexeme.isWordStart_bounds start).1]
  have swept : Sweep.gap.run (first :: rest) = some (.word (first :: rest), []) := by
    rw [Sweep.run_cons steps, ← List.append_nil rest, Sweep.run_word parts]
    simp
  rw [spelled] at other ⊢
  exact ⟨_, [], swept, by simp [Phase.Holds, Sweep.closes, other], rfl⟩

theorem carries_of_isNumeral {digits : String} (numeral : Text.IsNumeral digits.toList) :
    Carries digits 0 := by
  rintro place rfl
  have swept := @Sweep.run_isNumeral .gap _ [] numeral (.inl rfl)
  rw [List.append_nil] at swept
  exact ⟨.digits, [], swept, rfl, rfl⟩

theorem carries_of_isQuoted {literal : String} (quoted : Text.IsQuoted literal.toList) :
    Carries literal {literal} := by
  rintro place rfl
  obtain ⟨quote, body, spelled, isQuote, closed⟩ := quoted
  have slash : quote ≠ '\\' := by rcases isQuote with rfl | rfl <;> decide
  have opens : Sweep.gap.step quote = some (.literal quote [quote], []) := by
    rcases isQuote with rfl | rfl <;> rfl
  refine ⟨.gap, [literal], ?_, rfl, rfl⟩
  rw [spelled, Sweep.run_cons opens, Sweep.run_closeQuote slash closed, List.singleton_append,
    ← spelled, String.ofList_toList]
  rfl

theorem Path.carries_render {path : Path} (named : Named path.receiver.text)
    (members : ∀ member ∈ path.members, Named member) : Carries path.render 0 := by
  obtain ⟨receiver, names⟩ := path
  have dot : Passes .loose "." 0 .clear := passes_of_through (by decide)
  have front := named.carries
  rw [Path.render]
  clear named
  generalize receiver.text = text at front ⊢
  induction names generalizing text with
  | nil => exact front
  | cons name names ih =>
    have longer : Carries (text ++ "." ++ name) 0 :=
      (front.append_text dot).append_text (members name (by simp)).carries
    exact ih (fun member later => members member (List.mem_cons_of_mem name later)) _ longer

namespace Scope

theorem named_entity : Named "self" :=
  ⟨⟨'s', ['e', 'l', 'f'], rfl, rfl, List.all_eq_true.1 rfl⟩, rfl⟩

theorem named_nextVar (scope : Scope) : Named scope.nextVar := by
  have item (digits : List Char) (natural : ∀ c ∈ digits, c.isDigit = true) :
      Text.IsWord ("item".toList ++ digits) ∧ isThen ("item".toList ++ digits) = false := by
    have letters : ['t', 'e', 'm'].all Lexeme.isWordPart = true := rfl
    refine ⟨⟨'i', ['t', 'e', 'm'] ++ digits, rfl, rfl, ?_⟩, rfl⟩
    intro c member
    rcases List.mem_append.1 member with letter | digit
    · exact List.all_eq_true.1 letters c letter
    · exact Sweep.isWordPart_of_isDigit (natural c digit)
  rw [nextVar]
  split
  · exact item [] (by simp)
  · have digits : (toString scope.depth).toList = Nat.toDigits 10 scope.depth := by
      simp [Nat.repr]
    rw [Named, String.toList_append, digits]
    exact item _ fun c member => Nat.isDigit_of_mem_toDigits (by decide) (by decide) member

theorem carries_value {scope : Scope} (receiver : Named scope.receiverText) {names : List String}
    (words : ∀ name ∈ names, Named name) {text : String} {path : Path}
    (resolved : scope.value names text = .ok path) : Carries path.render 0 := by
  obtain ⟨start, members⟩ := resolve_forall named_entity receiver words
  unfold Scope.value at resolved
  simp only at resolved
  split at resolved
  · cases resolved
  · cases resolved
    exact Path.carries_render start members

theorem carries_collection {scope : Scope} (receiver : Named scope.receiverText)
    {names : List String} (words : ∀ name ∈ names, Named name) {text : String}
    {collection : Collection} (resolved : scope.collection names text = .ok collection) :
    Carries collection.render 0 := by
  obtain ⟨start, members⟩ := resolve_forall named_entity receiver words
  unfold Scope.collection at resolved
  simp only at resolved
  split at resolved
  · cases resolved
    exact Path.carries_render start members
  · cases resolved
    exact Path.carries_render start members
  · rename_i member field parts
    cases resolved
    rw [parts] at members
    have var := (named_nextVar scope).carries
    have path : Carries (Path.render ⟨(scope.resolve names).receiver, [member]⟩) 0 :=
      Path.carries_render start (by simpa using members member (by simp))
    have opened : Passes .clear "[" 0 .clear := passes_of_through (by decide)
    have dot : Passes .loose "." 0 .clear := passes_of_through (by decide)
    have forWord : Passes .loose " for " 0 .clear := passes_of_through (by decide)
    have inWord : Passes .loose " in " 0 .clear := passes_of_through (by decide)
    have closed : Passes .loose "]" 0 .loose := (passes_of_through (by decide)).loosen
    exact (((((((opened.text_append var).append_text dot).append_text
      (members field (by simp)).carries).append_text forWord).append_text var).append_text
      inWord).append_text path).append_text closed
  · cases resolved

end Scope

namespace Template

/-- What the holes of a template ask for, in the order of the holes. -/
def slots (template : Template) : List Slot :=
  template.filterMap fun
    | .literal _ => none
    | .hole key => some (Slot.ofKey key)

/-- A sweep of a template whose holes take arguments. A hole stands in a gap. -/
def sweep (before : Phase) : Template → Option Phase
  | [] => some before
  | .literal text :: rest => (before.through text).bind fun between => sweep between rest
  | .hole key :: rest =>
    match before, Slot.ofKey key with
    | .loose, _ => none
    | .clear, .named _ => none
    | .clear, _ => sweep .loose rest

end Template

/-- The literals that fill a slot, for arguments that carry these. -/
def Slot.literals (parts : List (Multiset String)) : Slot → Multiset String
  | .all => parts.sum
  | .argument index => (parts[index]?).getD 0
  | .named _ => 0

section Fill

variable {arguments : List String} {parts : List (Multiset String)}
  (each : List.Forall₂ Carries arguments parts)

include each

theorem Slot.carries_fill (slot : Slot) :
    Carries (slot.fill arguments []) (slot.literals parts) := by
  have nothing : Carries "" 0 := carries_of_through (by decide)
  cases slot with
  | all => exact carries_commas each
  | named key => exact nothing
  | argument index =>
    rw [Slot.fill, Slot.literals]
    induction each generalizing index with
    | nil => exact nothing
    | cons first others ih =>
      cases index with
      | zero => exact first
      | succ index => exact ih index

theorem Template.passes_fill {template : Template} {before after : Phase}
    (fits : template.sweep before = some after) :
    Passes before (template.fill arguments []) (template.slots.map (Slot.literals parts)).sum
      after := by
  fun_induction Template.sweep before template with
  | case1 =>
    cases fits
    exact passes_empty
  | case2 before text rest ih =>
    obtain ⟨between, here, later⟩ := Option.bind_eq_some_iff.1 fits
    exact (passes_of_through here).text_append (ih between later)
  | case3 => cases fits
  | case4 => cases fits
  | case5 key rest other ih => exact (Slot.carries_fill each (Slot.ofKey key)).append (ih fits)

end Fill

theorem sum_map_range (parts : List (Multiset String)) :
    ((List.range parts.length).map fun index => (parts[index]?).getD 0).sum = parts.sum := by
  congr 1
  apply List.ext_getElem (by simp)
  intro index _ inside
  simp [inside]

theorem Carries.unique {text : String} {found more : Multiset String} (first : Carries text found)
    (second : Carries text more) : found = more := by
  obtain ⟨next, list, swept, -, rfl⟩ := first .gap rfl
  obtain ⟨other, others, again, -, rfl⟩ := second .gap rfl
  rw [swept] at again
  cases again
  rfl

/-- An axis that is given as a number. -/
theorem carries_of_literalAxis? {axis : String} {number : Int}
    (literal : literalAxis? axis = some number) : Carries axis 0 := by
  have natural {cs : List Char} (whole : Text.natural? cs ≠ none) :
      Sweep.gap.run cs = some (.digits, []) := by
    unfold Text.natural? at whole
    split at whole
    · rename_i only
      have swept := @Sweep.run_isDigits .gap _ [] only (.inl rfl)
      rwa [List.append_nil] at swept
    · exact absurd rfl whole
  have swept : Sweep.gap.run axis.toList = some (.digits, []) := by
    unfold literalAxis? Text.boundedInteger? at literal
    split at literal
    · rename_i rest spelled
      rw [spelled, Sweep.run_cons (by rfl : Sweep.gap.step '-' = some (.gap, []))]
      exact natural fun empty => by simp [empty] at literal
    · rename_i rest spelled
      rw [spelled, Sweep.run_cons (by rfl : Sweep.gap.step '+' = some (.gap, []))]
      exact natural fun empty => by simp [empty] at literal
    · exact natural fun empty => by simp [empty] at literal
  rintro place rfl
  exact ⟨.digits, [], swept, rfl, rfl⟩

namespace Signature

/-- Whether the holes of the template are the arguments, each once. -/
def placesOnce (signature : Signature) : Bool :=
  signature.template.slots == [.all] ||
    match signature.arity with
    | .range least most => least == most &&
        signature.template.slots.isPerm ((List.range most).map .argument)
    | .forms _ => false

theorem placesOnce_of_mem : ∀ signature ∈ table,
    signature.shape = .positional ∨ signature.shape = .buildingBlock →
      (signature.template.sweep .clear).isSome = true ∧ signature.placesOnce = true := by
  decide +kernel

/-- A template asks for all arguments at once, or for each of them in some order. -/
theorem slots_of_placesOnce {signature : Signature} (once : signature.placesOnce = true)
    {count : Nat} (arity : signature.arity.accepts count = true) :
    signature.template.slots = [.all] ∨
      signature.template.slots.Perm ((List.range count).map .argument) := by
  rw [placesOnce, Bool.or_eq_true, beq_iff_eq] at once
  refine once.imp_right fun each => ?_
  cases counts : signature.arity with
  | forms counts => simp [counts] at each
  | range least most =>
    simp only [counts, Bool.and_eq_true, beq_iff_eq, List.isPerm_iff] at each
    obtain ⟨rfl, permuted⟩ := each
    obtain rfl : count = least := by
      simp only [counts, Arity.accepts, Bool.and_eq_true, decide_eq_true_eq] at arity
      omega
    exact permuted

/-- The literals of all arguments, in the order in which a template asks for the arguments. -/
theorem sum_slots {signature : Signature} (once : signature.placesOnce = true)
    {parts : List (Multiset String)} (arity : signature.arity.accepts parts.length = true) :
    (signature.template.slots.map (Slot.literals parts)).sum = parts.sum := by
  rcases slots_of_placesOnce once arity with all | permuted
  · simp [all, Slot.literals]
  · calc (signature.template.slots.map (Slot.literals parts)).sum
        = (((List.range parts.length).map Slot.argument).map (Slot.literals parts)).sum :=
          (permuted.map _).sum_eq
      _ = parts.sum := by
          rw [List.map_map]
          exact sum_map_range parts

theorem carries_fill {name : String} {signature : Signature}
    (found : lookup? name = some signature)
    (shape : signature.shape = .positional ∨ signature.shape = .buildingBlock)
    {arguments : List String} {parts : List (Multiset String)}
    (arity : signature.arity.accepts arguments.length = true)
    (each : List.Forall₂ Carries arguments parts) :
    Carries (signature.template.fill arguments []) parts.sum := by
  have member := List.mem_of_find?_eq_some found
  obtain ⟨fits, once⟩ := placesOnce_of_mem signature member shape
  rw [← sum_slots once (each.length_eq ▸ arity)]
  obtain ⟨after, swept⟩ := Option.isSome_iff_exists.1 fits
  have through := Template.passes_fill each swept
  cases after with
  | clear => exact through.loosen
  | loose => exact through

theorem template_of_collectionField : ∀ signature ∈ table, signature.shape = .collectionField →
    signature.template = (overMember "" "max").template ∨
      signature.template = (overMember "" "sum").template := by
  decide

theorem template_of_axisKeyword : ∀ signature ∈ table, signature.shape = .axisKeyword →
    signature.template = [.literal "np.sum(", .hole "0", .hole "axis", .literal ")"] := by
  decide

theorem template_of_sliceKeywords : ∀ signature ∈ table, signature.shape = .sliceKeywords →
    signature.template = [.literal "np.take(", .hole "0", .literal ", ", .hole "index",
      .literal ", axis=", .hole "axis", .literal ")"] := by
  decide

variable {name target axis index collection member var : String} {signature : Signature}
  {a b c : Multiset String}

theorem fill_overMember (callee : String) :
    (overMember "" callee).template.fill [collection, member] [("var", var)] =
      callee ++ "(" ++ var ++ "." ++ member ++ " for " ++ var ++ " in " ++ collection ++ ")" := by
  have zero : Slot.ofKey "0" = .argument 0 := by decide
  have one : Slot.ofKey "1" = .argument 1 := by decide
  have bound : Slot.ofKey "var" = .named "var" := by decide
  simp [overMember, Template.fill, Piece.fill, zero, one, bound, Slot.fill, String.append_assoc]

theorem carries_overMember (found : lookup? name = some signature)
    (shape : signature.shape = .collectionField) (source : Carries collection a)
    (word : Carries member 0) (bound : Carries var 0) :
    Carries (signature.template.fill [collection, member] [("var", var)]) a := by
  have dot : Passes .loose "." 0 .clear := passes_of_through (by decide)
  have forWord : Passes .loose " for " 0 .clear := passes_of_through (by decide)
  have inWord : Passes .loose " in " 0 .clear := passes_of_through (by decide)
  have called {callee : String} (opened : Passes .clear (callee ++ "(") 0 .clear) :
      Carries ((overMember "" callee).template.fill [collection, member] [("var", var)]) a := by
    rw [fill_overMember]
    exact (((((((opened.text_append bound).append_text dot).append_text word).append_text
      forWord).append_text bound).append_text inWord).text_append source).append_text passes_close
  rcases template_of_collectionField signature (List.mem_of_find?_eq_some found) shape with
    same | same
  · rw [same]
    exact called (passes_of_through (by decide))
  · rw [same]
    exact called (passes_of_through (by decide))

theorem carries_axisCode {along : Option String} (found : lookup? name = some signature)
    (shape : signature.shape = .axisKeyword) (array : Carries target a)
    (given : CarriesOption along b) : Carries (axisCode signature target along) (a + b) := by
  have zero : Slot.ofKey "0" = .argument 0 := by decide
  have key : Slot.ofKey "axis" = .named "axis" := by decide
  have opened : Passes .clear "np.sum(" 0 .clear := passes_of_through (by decide)
  have keyword : Passes .loose ", axis=" 0 .clear := passes_of_through (by decide)
  have template := template_of_axisKeyword signature (List.mem_of_find?_eq_some found) shape
  cases along with
  | none =>
    obtain rfl : b = 0 := given
    rw [axisCode, template, add_zero]
    have code : Carries _ a := (opened.text_append array).append_text passes_close
    simpa [Template.fill, Piece.fill, zero, key, Slot.fill, String.append_assoc] using code
  | some axis =>
    rw [axisCode, template]
    have code : Carries _ (a + b) := ((opened.text_append array).append
      (keyword.text_append given)).append_text passes_close
    simpa [Template.fill, Piece.fill, zero, key, Slot.fill, String.append_assoc] using code

theorem carries_sliceCode (found : lookup? name = some signature)
    (shape : signature.shape = .sliceKeywords) (array : Carries target a) (along : Carries axis b)
    (place : Carries index c) : Carries (sliceCode signature target axis index) (a + b + c) := by
  rw [sliceCode]
  split
  · rename_i literal
    obtain rfl : b = 0 := along.unique (carries_of_literalAxis? literal)
    rw [add_zero]
    exact carries_indexAlong _ array place
  · have zero : Slot.ofKey "0" = .argument 0 := by decide
    have first : Slot.ofKey "axis" = .named "axis" := by decide
    have second : Slot.ofKey "index" = .named "index" := by decide
    have opened : Passes .clear "np.take(" 0 .clear := passes_of_through (by decide)
    have keyword : Passes .loose ", axis=" 0 .clear := passes_of_through (by decide)
    rw [template_of_sliceKeywords signature (List.mem_of_find?_eq_some found) shape,
      add_right_comm]
    have code : Carries _ (a + c + b) := (((((opened.text_append array).append_text
      passes_comma).append place).append_text keyword).append along).append_text passes_close
    simpa [Template.fill, Piece.fill, zero, first, second, Slot.fill, List.lookup,
      String.append_assoc] using code

end Signature

/-- In code that a sweep goes through, a lexer that steps over what it does not know finds the
literals that the code carries, and no THEN. -/
theorem Carries.finds {code : String} {found : Multiset String} (carries : Carries code found) :
    ∃ list, Finds (tokenizeLenient code) list ∧ (list : Multiset String) = found := by
  obtain ⟨final, list, swept, closed, same⟩ := carries .gap rfl
  exact ⟨list, agrees code.toList 0 (.inl rfl) swept closed, same⟩

/-- The string literals among tokens, each as often as it stands there. -/
def bag (tokens : List Token) : Multiset String := literals tokens

@[simp] theorem bag_nil : bag [] = 0 := rfl

@[simp] theorem bag_append (first second : List Token) :
    bag (first ++ second) = bag first + bag second := by
  simp [bag, literals]

theorem bag_cons {token : Token} {tokens : List Token}
    (other : ∀ literal, token.kind ≠ .string literal) : bag (token :: tokens) = bag tokens := by
  have noLiteral : token.literal? = none := by
    unfold Token.literal?
    split
    · exact absurd ‹_› (other _)
    · rfl
  rw [bag, literals, List.filterMap_cons_none noLiteral]
  rfl

theorem bag_options {first second options : List Token}
    (order : options = first ++ second ∨ options = second ++ first) :
    bag options = bag first + bag second := by
  rcases order with rfl | rfl
  · exact bag_append first second
  · rw [bag_append, add_comm]

theorem bag_string {token : Token} {literal : String} (kind : token.kind = .string literal) :
    bag [token] = {literal} := by
  simp [bag, literals, Token.literal?, kind]

/-- Tokens among which no literal stands. -/
theorem bag_eq_zero {tokens : List Token}
    (others : ∀ token ∈ tokens, ∀ literal, token.kind ≠ .string literal) : bag tokens = 0 := by
  induction tokens with
  | nil => rfl
  | cons token tokens ih =>
    rw [bag_cons (others token (by simp)), ih fun token member => others token (by simp [member])]

theorem bag_of_referenceNames? {tokens : List Token} {names : List String}
    (dotted : referenceNames? tokens = some names) : bag tokens = 0 := by
  apply bag_eq_zero
  intro token member literal kind
  rcases (referenceNames?_tokens dotted).1 token member with ⟨name, named⟩ | mark
  · rw [kind] at named
    cases named
  · rw [kind] at mark
    cases mark

theorem named_of_referenceNames? {tokens : List Token} {names : List String}
    (spelled : Spelled tokens) (dotted : referenceNames? tokens = some names) :
    ∀ name ∈ names, Named name := by
  intro name member
  obtain ⟨token, inside, kind⟩ := (referenceNames?_tokens dotted).2 name member
  have named := spelled token inside
  rw [kind] at named
  exact named

theorem ne_string_of_infixOperator? {kind : Kind} {op : BinaryOp}
    (known : infixOperator? kind = some op) (literal : String) : kind ≠ .string literal := by
  rintro rfl
  cases known

theorem ne_string_of_calledName? {kind : Kind} {name : String}
    (known : calledName? kind = some name) (literal : String) : kind ≠ .string literal := by
  rintro rfl
  cases known

theorem carries_of_literal? {name : String} {expr : Expr}
    (known : Grammar.literal? name = some expr) : Carries expr.render 0 := by
  unfold Grammar.literal? at known
  split at known <;> cases known <;> exact carries_of_through (by decide)

/-- The code of what was read carries these literals. -/
def Reading.Keeps (found : Multiset String) : Reading → Prop
  | .items exprs => ∃ parts, List.Forall₂ Carries (Expr.renderAll exprs) parts ∧ parts.sum = found
  | .collection expr => Carries expr.render found
  | .clause _ expr => CarriesOption (Expr.renderOption expr) found
  | .source expr predicate =>
    ∃ own tests, Carries expr.render own ∧ CarriesOption (Expr.renderOption predicate) tests ∧
      own + tests = found
  | .key parameter expr => Named parameter ∧ Carries expr.render found
  | .keyword _ expr => Carries expr.render found
  | .arguments _ expr => Carries expr.render found

theorem Reading.keeps_item {expr : Expr} {found : Multiset String} :
    (Reading.items [expr]).Keeps found ↔ Carries expr.render found := by
  simp [Reading.Keeps, Expr.renderAll, List.forall₂_cons_left_iff]

theorem Reading.carries_items {exprs : List Expr} {found : Multiset String}
    (kept : (Reading.items exprs).Keeps found) :
    Carries (", ".intercalate (Expr.renderAll exprs)) found := by
  obtain ⟨parts, each, rfl⟩ := kept
  exact carries_commas each

theorem length_renderAll (exprs : List Expr) : (Expr.renderAll exprs).length = exprs.length := by
  induction exprs with
  | nil => rfl
  | cons expr exprs ih => simp [Expr.renderAll, ih]

/-- One expression, with its tokens counted in another way. -/
theorem Reading.keeps_of_item {expr : Expr} {found more : Multiset String}
    (code : Carries expr.render found) (same : more = found) :
    (Reading.items [expr]).Keeps more := keeps_item.2 (same ▸ code)

theorem Carries.congr {text : String} {found more : Multiset String} (code : Carries text found)
    (same : more = found) : Carries text more := same ▸ code

theorem carries_not {value : String} {found : Multiset String} (operand : Carries value found) :
    Carries ("(not " ++ value ++ ")") found := by
  have opened : Passes .clear "(not " 0 .clear := passes_of_through (by decide)
  exact (opened.text_append operand).append_text passes_close

/-- A mark in front of an operand, whose code is made from that of the operand. -/
theorem Reading.keeps_prefixed {token : Token} {tokens : List Token} {operand expr : Expr}
    (other : ∀ literal, token.kind ≠ .string literal)
    (code : ∀ {found}, Carries operand.render found → Carries expr.render found)
    (inner : (Reading.items [operand]).Keeps (bag tokens)) :
    (Reading.items [expr]).Keeps (bag (token :: tokens)) :=
  keeps_of_item (code (keeps_item.1 inner)) (bag_cons other)

/-- Expressions between brackets, with commas between their codes. -/
theorem Reading.keeps_bracketed {opening closing : Token} {tokens : List Token}
    {left right : String} {exprs : List Expr} {expr : Expr}
    (opens : ∀ literal, opening.kind ≠ .string literal)
    (closes : ∀ literal, closing.kind ≠ .string literal) (opened : Passes .clear left 0 .clear)
    (closed : Passes .loose right 0 .loose)
    (code : expr.render = left ++ ", ".intercalate (Expr.renderAll exprs) ++ right)
    (inside : (Reading.items exprs).Keeps (bag tokens)) :
    (Reading.items [expr]).Keeps (bag (opening :: tokens ++ [closing])) := by
  have text := (opened.text_append (carries_items inside)).append_text closed
  rw [← code] at text
  exact keeps_of_item text (by simp [bag_cons, opens, closes])

/-- The elements that a key is applied to. -/
theorem Reading.carries_elements {var : String} {collection : Expr} {predicate : Option Expr}
    {found : Multiset String} (bound : Carries var 0)
    (source : (Reading.source collection predicate).Keeps found) :
    Carries (filtered var collection.render (Expr.renderOption predicate)) found := by
  obtain ⟨own, tests, given, passed, rfl⟩ := source
  exact carries_filtered bound given passed

/-- Everything that a formula is read as carries the literals of its own tokens: by induction over
the rules, with the code of a node as a function of the codes of its parts. -/
theorem keeps_of_reads {scope : Scope} {tokens : List Token} {reading : Reading}
    (reads : Reads scope tokens reading) (spelled : Spelled tokens)
    (receiver : Named scope.receiverText) : reading.Keeps (bag tokens) := by
  -- A rule adds marks and words to the tokens of its parts, and none of them is a literal.
  induction reads with
  | number kind =>
    rw [spelled_cons, kind] at spelled
    exact Reading.keeps_of_item (carries_of_isNumeral spelled.1) (by simp [bag_cons, kind])
  | text kind =>
    rw [spelled_cons, kind] at spelled
    exact Reading.keeps_of_item (carries_of_isQuoted spelled.1) (bag_string kind)
  | literal kind known =>
    exact Reading.keeps_of_item (carries_of_literal? known) (by simp [bag_cons, kind])
  | reference dotted resolved =>
    have words := named_of_referenceNames? spelled dotted
    have code := Scope.carries_value receiver words resolved
    exact Reading.keeps_of_item code (bag_of_referenceNames? dotted)
  | group opens closes inside ih =>
    simp only [spelled_cons, spelled_append, List.cons_append] at spelled
    have inner := Reading.keeps_item.1 (ih spelled.2.1 receiver)
    exact Reading.keeps_of_item inner (by simp [bag_cons, opens, closes])
  | tuple opens closes inside several ih =>
    simp only [spelled_cons, spelled_append, List.cons_append] at spelled
    exact Reading.keeps_bracketed (by simp [opens]) (by simp [closes]) passes_open passes_close rfl
      (ih spelled.2.1 receiver)
  | list opens closes inside ih =>
    simp only [spelled_cons, spelled_append, List.cons_append] at spelled
    have opened : Passes .clear "[" 0 .clear := passes_of_through (by decide)
    have closed : Passes .loose "]" 0 .loose := (passes_of_through (by decide)).loosen
    exact Reading.keeps_bracketed (by simp [opens]) (by simp [closes]) opened closed rfl
      (ih spelled.2.1 receiver)
  | nothing => exact ⟨[], .nil, rfl⟩
  | more first kind others ihFirst ihOthers =>
    simp only [spelled_cons, spelled_append] at spelled
    have head := Reading.keeps_item.1 (ihFirst spelled.1 receiver)
    obtain ⟨parts, tail, total⟩ := ihOthers spelled.2.2 receiver
    exact ⟨_ :: parts, .cons head tail, by simp [bag_cons, kind, total]⟩
  | not kind operand ih =>
    exact Reading.keeps_prefixed (by simp [kind]) carries_not
      (ih (spelled_cons.1 spelled).2 receiver)
  | negate kind operand ih =>
    exact Reading.keeps_prefixed (by simp [kind]) carries_negationCode
      (ih (spelled_cons.1 spelled).2 receiver)
  | positive kind operand ih =>
    exact Reading.keeps_prefixed (by simp [kind]) id (ih (spelled_cons.1 spelled).2 receiver)
  | binary kind first second ihFirst ihSecond =>
    simp only [spelled_cons, spelled_append] at spelled
    have left := Reading.keeps_item.1 (ihFirst spelled.1 receiver)
    have right := Reading.keeps_item.1 (ihSecond spelled.2.2 receiver)
    have operator := ne_string_of_infixOperator? kind
    exact Reading.keeps_of_item (BinaryOp.carries_code _ left right)
      (by rw [bag_append, bag_cons operator])
  | conditional isIf opens closes isThen isElse test first second ihTest ihFirst ihSecond =>
    simp only [spelled_cons, spelled_append] at spelled
    obtain ⟨-, -, insideTest, -, -, insideFirst, -, insideSecond⟩ := spelled
    have condition := Reading.keeps_item.1 (ihTest insideTest receiver)
    have yes := Reading.keeps_item.1 (ihFirst insideFirst receiver)
    have no := Reading.keeps_item.1 (ihSecond insideSecond receiver)
    exact Reading.keeps_of_item (carries_conditionalCode condition yes no)
      (by simp [bag_cons, isIf, opens, closes, isThen, isElse, add_assoc])
  | call kind opens closes inside ih =>
    simp only [spelled_cons, spelled_append] at spelled
    have head := ne_string_of_calledName? kind
    exact Reading.keeps_of_item (ih spelled.2.2.1 receiver)
      (by simp [bag_cons, head, opens, closes])
  | positional found _ shape arity parts ih =>
    obtain ⟨parts, each, total⟩ := ih spelled receiver
    rw [← total]
    exact Signature.carries_fill found shape (by rwa [length_renderAll]) each
  | @overMember scope name member signature tokens comma token expr found _ shape collection kind
      named ih =>
    simp only [spelled_cons, spelled_append] at spelled
    obtain ⟨inside, -, word, -⟩ := spelled
    rw [named] at word
    have source := Reading.keeps_item.1 (ih inside receiver)
    have code := Signature.carries_overMember found shape source word.carries
      scope.named_nextVar.carries
    exact code.congr (by simp [bag_cons, kind, named])
  | keyword kind named known equals given ih =>
    simp only [spelled_cons] at spelled
    exact (Reading.keeps_item.1 (ih spelled.2.2.2 receiver)).congr
      (by simp [bag_cons, kind, named, equals])
  | wholeArray found _ shape target ih =>
    have array := Reading.keeps_item.1 (ih spelled receiver)
    have code := @Signature.carries_axisCode _ _ _ _ _ none found shape array rfl
    exact code.congr (by simp)
  | alongAxis found _ shape target given ihTarget ihGiven =>
    have array := Reading.keeps_item.1 (ihTarget (spelled_append.1 spelled).1 receiver)
    have axis := ihGiven (spelled_append.1 spelled).2 receiver
    have code := @Signature.carries_axisCode _ _ _ _ _ (some _) found shape array axis
    exact code.congr (bag_append _ _)
  | @slice scope name signature tokens first second options expr axis index found _ shape inRange
      target along place order ihTarget ihAlong ihPlace =>
    obtain ⟨front, options⟩ := spelled_append.1 spelled
    have both : Spelled first ∧ Spelled second := forall_options order options
    have array := Reading.keeps_item.1 (ihTarget front receiver)
    have code := Signature.carries_sliceCode found shape array (ihAlong both.1 receiver)
      (ihPlace both.2 receiver)
    exact code.congr (by rw [bag_append, bag_options order, add_assoc])
  | receiver => exact receiver.carries
  | named dotted resolved =>
    have words := named_of_referenceNames? spelled dotted
    have code := Scope.carries_collection receiver words resolved
    exact code.congr (bag_of_referenceNames? dotted)
  | computed given _ ih => exact Reading.keeps_item.1 (ih spelled receiver)
  | absent => exact bag_nil
  | @present scope mark token tokens expr kind given ih =>
    have inner := Reading.keeps_item.1 (ih (spelled_cons.1 spelled).2 receiver)
    have other : ∀ literal, token.kind ≠ .string literal := by cases mark <;> simp [kind, Mark.kind]
    exact inner.congr (bag_cons other)
  | @reduce scope name reducer before middle behind collection predicate projection known source
      test value _ ihSource ihTest ihValue =>
    simp only [spelled_append] at spelled
    have var := scope.named_nextVar
    have code := Reducer.carries_code var.carries (ihSource spelled.1.1 receiver)
      (ihTest spelled.1.2 var) (ihValue spelled.2 var) reducer
    exact code.congr (by rw [bag_append, bag_append])
  | ownSource => exact ⟨0, 0, receiver.carries, rfl, rfl⟩
  | @givenSource scope comma before behind collection predicate source test kind _ ihSource
      ihTest =>
    simp only [spelled_append] at spelled
    have own := ihSource spelled.1.1 receiver
    have tests := ihTest spelled.1.2 scope.named_nextVar
    exact ⟨_, _, own, tests, by simp [bag_cons, kind]⟩
  | key named kind body ih =>
    simp only [spelled_cons] at spelled
    obtain ⟨word, -, inside⟩ := spelled
    rw [named] at word
    have inner := Reading.keeps_item.1 (ih inside word)
    exact ⟨word, inner.congr (by simp [bag_cons, named, kind])⟩
  | @extreme scope name parameter which before behind collection body predicate known source chosen
      ihSource ihChosen =>
    have elements := Reading.carries_elements scope.named_nextVar.carries
      (ihSource (spelled_append.1 spelled).1 receiver)
    obtain ⟨word, key⟩ := ihChosen (spelled_append.1 spelled).2 receiver
    exact (which.carries_code elements word.carries key).congr (bag_append _ _)
  | @top scope parameter comma first before behind count collection body predicate number kind
      source chosen ihNumber ihSource ihChosen =>
    simp only [spelled_cons, spelled_append] at spelled
    have count := Reading.keeps_item.1 (ihNumber spelled.1 receiver)
    have elements := Reading.carries_elements scope.named_nextVar.carries
      (ihSource spelled.2.2.1 receiver)
    obtain ⟨word, key⟩ := ihChosen spelled.2.2.2 receiver
    have code := carries_topCode count elements word.carries key
    exact code.congr (by simp [bag_cons, kind])

namespace Formula

/-- The code of an accepted formula carries the literals of the formula. -/
theorem carries_of_compile {formula : String} {fragment : Fragment}
    (success : (compile formula).result = .ok fragment) :
    ∃ tokens, tokenize formula = .ok tokens ∧ Carries fragment.code (bag tokens) := by
  obtain ⟨expr, parsed, rfl⟩ := compile_eq_ok.1 success
  obtain ⟨tokens, lexed, ⟨rfl, rfl⟩ | reads⟩ := reads_of_parse parsed
  · exact ⟨[], lexed, carries_of_through (by decide : (Phase.clear.through "None").isSome = true)⟩
  · have kept := keeps_of_reads reads (tokenize_spelled lexed) Scope.named_entity
    exact ⟨tokens, lexed, Reading.keeps_item.1 kept⟩

/-- The code of an accepted formula has the string literals of the formula, each as often as it was
written, and no others. -/
theorem compile_literals {formula : String} {fragment : Fragment}
    (success : (compile formula).result = .ok fragment) :
    ∃ tokens, tokenize formula = .ok tokens ∧ bag (tokenizeLenient fragment.code) = bag tokens := by
  obtain ⟨tokens, lexed, carries⟩ := carries_of_compile success
  obtain ⟨list, finds, same⟩ := carries.finds
  refine ⟨tokens, lexed, ?_⟩
  rw [bag, finds.1, same]

/-- A literal that stands in three parts, of a list, of an index and of a key, among others. -/
theorem compile_literals_repeated :
    ∃ fragment,
      (compile "IF(x IN ['a', \"b\"], SLICE('t', index='a', axis=0), MAXBY(xs, p => 'a'))").result =
          .ok fragment ∧
        fragment.code =
          "('t'['a'] if (self.x in ['a', \"b\"]) else max(self.xs, key=lambda p: 'a'))" ∧
        bag (tokenizeLenient fragment.code) = {"'a'", "'a'", "'a'", "\"b\"", "'t'"} := by
  have success :
      (compile "IF(x IN ['a', \"b\"], SLICE('t', index='a', axis=0), MAXBY(xs, p => 'a'))").result =
        .ok (.plain
          "('t'['a'] if (self.x in ['a', \"b\"]) else max(self.xs, key=lambda p: 'a'))") :=
    eq_ok_of_toOption (by decide +kernel)
  have written :
      (tokenize "IF(x IN ['a', \"b\"], SLICE('t', index='a', axis=0), MAXBY(xs, p => 'a'))").map
        literals = .ok ["'a'", "\"b\"", "'t'", "'a'", "'a'"] := by
    cbv
  obtain ⟨tokens, lexed, same⟩ := compile_literals success
  rw [lexed] at written
  refine ⟨_, success, rfl, same.trans ?_⟩
  rw [bag, Except.ok.inj written]
  decide

end Formula

end Formulary
