import Formulary.Proofs.Reading
import Formulary.Proofs.Scan

set_option autoImplicit false

namespace Formulary

section Nodes

variable {left right condition yes no value var collection elements parameter key : String}
  {target index count function : String} {predicate projection : Option String}

theorem inside_commas {texts : List String} (parts : ∀ text ∈ texts, Delimited text) :
    Inside (", ".intercalate texts) := by
  induction texts with
  | nil => exact inside_empty
  | cons text texts ih =>
    have first := (parts text (by simp)).inside
    have others := ih fun text member => parts text (by simp [member])
    have comma : Inside ", " := fun _ _ => rfl
    cases texts with
    | nil => simpa using first
    | cons next texts =>
      rw [String.intercalate_cons_cons]
      exact (first.append comma).append others

theorem BinaryOp.inside_symbol (op : BinaryOp) (right : String) : Inside (op.symbol right) := by
  intro bracket outer
  cases op with
  | equal =>
    rw [BinaryOp.symbol]
    split <;> exact rfl
  | notEqual =>
    rw [BinaryOp.symbol]
    split <;> exact rfl
  | _ =>
    rw [BinaryOp.symbol]
    exact rfl

theorem BinaryOp.delimited_code (op : BinaryOp) (first : Delimited left)
    (second : Delimited right) : Delimited (op.code left right) := by
  apply Delimited.of_append (by simp)
  exact (((((runs_open.append (first.runs _)).append (inside_blank _ _)).append
    (op.inside_symbol right _ _)).append (inside_blank _ _)).append (second.runs _)).append
    runs_close

theorem delimited_negationCode (operand : Delimited value) : Delimited (negationCode value) := by
  have sign : Runs [] "-" [] := rfl
  have opened : Runs [] "(-" [.round] := rfl
  rw [negationCode]
  split
  · exact ⟨by simp, sign.append (operand.runs _)⟩
  · exact .of_append (by simp) ((opened.append (operand.runs _)).append runs_close)

theorem delimited_conditionalCode (test : Delimited condition) (first : Delimited yes)
    (second : Delimited no) : Delimited (conditionalCode condition yes no) := by
  have ifWord : Inside " if " := fun _ _ => rfl
  have elseWord : Inside " else " := fun _ _ => rfl
  apply Delimited.of_append (by simp)
  exact (((((runs_open.append (first.runs _)).append (ifWord _ _)).append (test.runs _)).append
    (elseWord _ _)).append (second.runs _)).append runs_close

theorem inside_generator (each : Inside value) (bound : Inside var) (source : Inside collection)
    (test : ∀ text ∈ predicate, Inside text) :
    Inside (generator value var collection predicate) := by
  have forWord : Inside " for " := fun _ _ => rfl
  have inWord : Inside " in " := fun _ _ => rfl
  have ifWord : Inside " if " := fun _ _ => rfl
  have front := (((each.append forWord).append bound).append inWord).append source
  cases predicate with
  | none => exact front.append inside_empty
  | some text => exact front.append (ifWord.append (test text rfl))

theorem delimited_filtered (bound : Delimited var) (source : Delimited collection)
    (test : ∀ text ∈ predicate, Delimited text) :
    Delimited (filtered var collection predicate) := by
  cases predicate with
  | none => exact source
  | some text =>
    have body := inside_generator bound.inside bound.inside source.inside
      fun text member => (test text member).inside
    exact .of_append (by simp) ((runs_open.append (body _ _)).append runs_close)

/-- A call is delimited if its arguments may stand between brackets. -/
theorem delimited_call (callee : Delimited function) (arguments : Inside value) :
    Delimited (function ++ "(" ++ value ++ ")") :=
  .of_append (by simp)
    ((((callee.runs _).append runs_open).append (arguments _ _)).append runs_close)

theorem Reducer.delimited_applyCode (callee : Delimited function) (bound : Delimited var)
    (source : Delimited collection) (test : ∀ text ∈ predicate, Delimited text)
    (each : ∀ text ∈ projection, Delimited text) :
    Delimited (applyCode function var collection predicate projection) := by
  have value : Inside (projection.getD var) := by
    cases projection with
    | none => exact bound.inside
    | some text => exact (each text rfl).inside
  have body := inside_generator value bound.inside source.inside
    fun text member => (test text member).inside
  unfold applyCode
  split
  · exact delimited_call callee source.inside
  · exact delimited_call callee body

theorem Reducer.delimited_countCode (bound : Delimited var) (source : Delimited collection)
    (test : ∀ text ∈ predicate, Delimited text) (each : ∀ text ∈ projection, Delimited text) :
    Delimited (countCode var collection predicate projection) := by
  have one : Inside "1" := fun _ _ => rfl
  have present : Inside " is not None" := fun _ _ => rfl
  have andWord : Inside " and " := fun _ _ => rfl
  have counted {text : String} (passes : Inside text) :
      Delimited ("sum(" ++ generator "1" var collection (some text) ++ ")") := by
    have opened : Runs [] "sum(" [.round] := rfl
    have body := inside_generator one bound.inside source.inside
      fun other member => Option.some.inj member ▸ passes
    exact .of_append (by simp) ((opened.append (body _ _)).append runs_close)
  unfold countCode
  split
  · have opened : Runs [] "len(" [.round] := rfl
    exact .of_append (by simp) ((opened.append (source.runs _)).append runs_close)
  · exact counted (test _ rfl).inside
  · exact counted ((each _ rfl).inside.append present)
  · exact counted ((((test _ rfl).inside.append andWord).append (each _ rfl).inside).append present)

theorem Reducer.delimited_existsCode (bound : Delimited var) (source : Delimited collection)
    (test : ∀ text ∈ predicate, Delimited text) (each : ∀ text ∈ projection, Delimited text) :
    Delimited (existsCode var collection predicate projection) := by
  have value : Inside (projection.getD "True") := by
    cases projection with
    | none => exact fun _ _ => rfl
    | some text => exact (each text rfl).inside
  have body := inside_generator value bound.inside source.inside
    fun text member => (test text member).inside
  unfold existsCode
  split
  · have opened : Runs [] "(len(" [.round, .round] := rfl
    have closed : Runs [.round, .round] ") > 0)" [] := rfl
    exact .of_append (by simp) ((opened.append (source.runs _)).append closed)
  · have opened : Runs [] "any(" [.round] := rfl
    exact .of_append (by simp) ((opened.append (body _ _)).append runs_close)

theorem Reducer.delimited_code (reducer : Reducer) (bound : Delimited var)
    (source : Delimited collection) (test : ∀ text ∈ predicate, Delimited text)
    (each : ∀ text ∈ projection, Delimited text) :
    Delimited (reducer.code var collection predicate projection) := by
  cases reducer with
  | count => exact delimited_countCode bound source test each
  | sum => exact delimited_applyCode (by decide) bound source test each
  | mean => exact delimited_applyCode (by decide) bound source test each
  | mode => exact delimited_applyCode (by decide) bound source test each
  | «exists» => exact delimited_existsCode bound source test each

theorem Extreme.delimited_code (which : Extreme) (source : Delimited elements)
    (bound : Delimited parameter) (body : Delimited key) :
    Delimited (which.code elements parameter key) := by
  have opened : Runs [] (which.function ++ "(") [.round] := by
    cases which <;> exact rfl
  have lambda : Inside ", key=lambda " := fun _ _ => rfl
  have colon : Inside ": " := fun _ _ => rfl
  apply Delimited.of_append (by simp)
  exact (((((opened.append (source.runs _)).append (lambda _ _)).append (bound.runs _)).append
    (colon _ _)).append (body.runs _)).append runs_close

theorem delimited_topCode (number : Delimited count) (source : Delimited elements)
    (bound : Delimited parameter) (body : Delimited key) :
    Delimited (topCode count elements parameter key) := by
  have opened : Runs [] "sorted(" [.round] := rfl
  have lambda : Inside ", key=lambda " := fun _ _ => rfl
  have colon : Inside ": " := fun _ _ => rfl
  have sliced : Runs [.round] ", reverse=True)[:" [.square] := rfl
  have closed : Runs [.square] "]" [] := rfl
  apply Delimited.of_append (by simp)
  exact (((((((opened.append (source.runs _)).append (lambda _ _)).append (bound.runs _)).append
    (colon _ _)).append (body.runs _)).append sliced).append (number.runs _)).append closed

theorem inside_repeated {text : String} (times : Nat) (part : Inside text) :
    Inside (repeated times text) := by
  induction times with
  | zero => exact inside_empty
  | succ times ih =>
    rw [repeated_succ]
    exact part.append ih

theorem delimited_indexAlong (axis : Int) (array : Delimited target) (place : Delimited index) :
    Delimited (indexAlong target axis index) := by
  have opened : Runs [] "[" [.square] := rfl
  have ellipsis : Runs [] "[..., " [.square] := rfl
  have before : Inside (repeated axis.natAbs ":, ") := inside_repeated _ fun _ _ => rfl
  have behind : Inside (repeated (axis.natAbs - 1) ", :") := inside_repeated _ fun _ _ => rfl
  have closed : Runs [.square] "]" [] := rfl
  rw [indexAlong]
  split
  · apply Delimited.of_append (by simp)
    exact ((((array.runs _).append opened).append (before _ _)).append (place.runs _)).append closed
  · apply Delimited.of_append (by simp)
    exact ((((array.runs _).append ellipsis).append (place.runs _)).append (behind _ _)).append
      closed

theorem Path.plain_render {path : Path} (receiver : Plain path.receiver.text)
    (members : ∀ member ∈ path.members, Plain member) : Plain path.render := by
  obtain ⟨head, names⟩ := path
  have dot : Plain "." := by decide
  rw [Path.render]
  generalize head.text = text at receiver ⊢
  induction names generalizing text with
  | nil => exact receiver
  | cons name names ih =>
    have longer : Plain (text ++ "." ++ name) :=
      (receiver.append dot).append (members name (by simp))
    exact ih (fun member later => members member (List.mem_cons_of_mem name later)) _ longer

end Nodes

namespace Template

/-- A scan of a template with its holes left open. The hole for one argument may stand anywhere,
any other hole only between brackets. -/
def scan (opened : List Bracket) : Template → Option (List Bracket)
  | [] => some opened
  | .literal text :: rest =>
    match Scan.run ⟨opened, .code⟩ text.toList with
    | some ⟨opened, .code⟩ => scan opened rest
    | _ => none
  | .hole key :: rest =>
    match Slot.ofKey key with
    | .argument _ => scan opened rest
    | _ => if opened = [] then none else scan opened rest

/-- Whether there is text between the holes. -/
def hasText (template : Template) : Bool :=
  template.any fun
    | .literal text => text != ""
    | .hole _ => false

section Fill

variable {arguments : List String} {named : List (String × String)}

theorem fill_ne_empty {template : Template} (text : template.hasText = true) :
    template.fill arguments named ≠ "" := by
  induction template with
  | nil => cases text
  | cons piece rest ih =>
    rw [fill]
    simp only [hasText, List.any_cons, Bool.or_eq_true] at text
    rcases text with here | later
    · cases piece with
      | literal text => simp_all [Piece.fill]
      | hole key => cases here
    · simp [ih later]

theorem runs_argument (parts : ∀ text ∈ arguments, Delimited text) (opened : List Bracket)
    (index : Nat) : Runs opened ((Slot.argument index).fill arguments named) opened := by
  rw [Slot.fill]
  cases found : arguments[index]? with
  | none => exact rfl
  | some text => exact (parts text (List.mem_of_getElem? found)).runs opened

theorem inside_fill (parts : ∀ text ∈ arguments, Delimited text)
    (values : ∀ entry ∈ named, Inside entry.2) (slot : Slot) :
    Inside (slot.fill arguments named) := by
  cases slot with
  | all => exact inside_commas parts
  | argument index => exact fun _ _ => runs_argument parts _ index
  | named key =>
    rw [Slot.fill]
    cases found : named.lookup key with
    | none => exact inside_empty
    | some text =>
      obtain ⟨front, back, split, -⟩ := List.lookup_eq_some_iff.1 found
      exact values (key, text) (by simp [split])

theorem runs_fill (parts : ∀ text ∈ arguments, Delimited text)
    (values : ∀ entry ∈ named, Inside entry.2) {template : Template} {before after : List Bracket}
    (fits : template.scan before = some after) :
    Runs before (template.fill arguments named) after := by
  fun_induction scan before template with
  | case1 =>
    cases fits
    exact rfl
  | case2 opened text rest opened' through ih => exact Runs.append through (ih fits)
  | case3 => cases fits
  | case4 opened key rest index kind ih =>
    rw [fill, Piece.fill, kind]
    exact (runs_argument parts opened index).append (ih fits)
  | case5 => cases fits
  | case6 opened key rest deeper other ih =>
    obtain ⟨bracket, outer, rfl⟩ := List.exists_cons_of_ne_nil deeper
    exact (inside_fill parts values (Slot.ofKey key) bracket outer).append (ih fits)

end Fill

end Template

namespace Signature

theorem scan_of_mem : ∀ signature ∈ table,
    signature.template.scan [] = some [] ∧ signature.template.hasText = true := by
  decide +kernel

/-- Every function of the table is written as delimited code. -/
theorem delimited_fill {name : String} {signature : Signature}
    (found : lookup? name = some signature) {arguments : List String}
    {named : List (String × String)} (parts : ∀ text ∈ arguments, Delimited text)
    (values : ∀ entry ∈ named, Inside entry.2) :
    Delimited (signature.template.fill arguments named) := by
  obtain ⟨fits, text⟩ := scan_of_mem signature (List.mem_of_find?_eq_some found)
  exact ⟨Template.fill_ne_empty text, Template.runs_fill parts values fits⟩

theorem delimited_axisCode {name target : String} {signature : Signature} {axis : Option String}
    (found : lookup? name = some signature) (array : Delimited target)
    (given : ∀ text ∈ axis, Delimited text) : Delimited (axisCode signature target axis) := by
  have parts : ∀ text ∈ [target], Delimited text := by simpa using array
  cases axis with
  | none => exact delimited_fill found parts (by simp)
  | some axis =>
    have keyword : Inside ", axis=" := fun _ _ => rfl
    apply delimited_fill found parts
    simpa using keyword.append (given axis rfl).inside

theorem delimited_sliceCode {name target axis index : String} {signature : Signature}
    (found : lookup? name = some signature) (array : Delimited target) (along : Delimited axis)
    (place : Delimited index) : Delimited (sliceCode signature target axis index) := by
  rw [sliceCode]
  split
  · exact delimited_indexAlong _ array place
  · apply delimited_fill found (by simpa using array)
    simpa using ⟨along.inside, place.inside⟩

end Signature

namespace Scope

theorem plain_nextVar (scope : Scope) : Plain scope.nextVar := by
  have item : Plain "item" := by decide
  rw [nextVar]
  split
  · exact item
  · rename_i depth _
    have digits : (toString scope.depth).toList = Nat.toDigits 10 scope.depth := by
      simp [Nat.repr]
    refine item.append ⟨?_, ?_⟩
    · intro empty
      have nonempty := Nat.length_toDigits_pos (b := 10) (n := scope.depth)
      rw [← digits, empty] at nonempty
      cases nonempty
    · rw [digits, List.all_eq_true]
      intro c member
      have digit := Nat.isDigit_of_mem_toDigits (by decide) (by decide) member
      exact isPlain_of_isDigit digit

theorem plain_entity : Plain entity.receiverText := by decide

theorem delimited_collection {scope : Scope} (receiver : Plain scope.receiverText)
    {names : List String} (words : ∀ name ∈ names, Plain name) {text : String}
    {collection : Collection} (resolved : scope.collection names text = .ok collection) :
    Delimited collection.render := by
  obtain ⟨start, members⟩ := resolve_forall plain_entity receiver words
  unfold Scope.collection at resolved
  simp only at resolved
  split at resolved
  · cases resolved
    exact (Path.plain_render start members).delimited
  · cases resolved
    exact (Path.plain_render start members).delimited
  · rename_i member field parts
    cases resolved
    rw [parts] at members
    have var := (plain_nextVar scope).delimited
    have path : Plain (Path.render ⟨(scope.resolve names).receiver, [member]⟩) :=
      Path.plain_render start (by simpa using members member (by simp))
    have opened : Runs [] "[" [.square] := rfl
    have dot : Inside "." := fun _ _ => rfl
    have forWord : Inside " for " := fun _ _ => rfl
    have inWord : Inside " in " := fun _ _ => rfl
    have closed : Runs [.square] "]" [] := rfl
    apply Delimited.of_append (by simp)
    exact (((((((opened.append (var.runs _)).append (dot _ _)).append
      ((members field (by simp)).delimited.runs _)).append (forWord _ _)).append
      (var.runs _)).append (inWord _ _)).append (path.delimited.runs _)).append closed
  · cases resolved

end Scope

theorem plain_of_name? {token : Token} {name : String} (lexed : token.kind.Lexed)
    (named : token.kind.name? = some name) : Plain name := by
  cases kind : token.kind with
  | ident spelled =>
    rw [kind] at lexed named
    cases named
    exact plain_of_isWord lexed
  | _ =>
    rw [kind] at named
    cases named

theorem plain_of_referenceNames? {tokens : List Token} {names : List String}
    (lexed : Lexed tokens) (dotted : referenceNames? tokens = some names) :
    ∀ name ∈ names, Plain name := by
  intro name member
  obtain ⟨token, inside, kind⟩ := (referenceNames?_tokens dotted).2 name member
  exact plain_of_name? (lexed token inside) (by rw [kind]; rfl)

/-- The code of what was read is delimited. -/
def Reading.Delimits : Reading → Prop
  | .items exprs => ∀ text ∈ Expr.renderAll exprs, Delimited text
  | .collection expr => Delimited expr.render
  | .clause _ expr => ∀ text ∈ Expr.renderOption expr, Delimited text
  | .source expr predicate =>
    Delimited expr.render ∧ ∀ text ∈ Expr.renderOption predicate, Delimited text
  | .key parameter expr => Delimited parameter ∧ Delimited expr.render
  | .keyword _ expr => Delimited expr.render
  | .arguments _ expr => Delimited expr.render

theorem Reading.delimits_item {expr : Expr} :
    (Reading.items [expr]).Delimits ↔ Delimited expr.render := by
  simp [Reading.Delimits, Expr.renderAll]

theorem delimited_of_literal? {name : String} {expr : Expr}
    (known : Grammar.literal? name = some expr) : Delimited expr.render := by
  unfold Grammar.literal? at known
  split at known <;> cases known <;> decide

/-- Expressions between brackets, with commas between their codes. -/
theorem Reading.delimits_bracketed {left right : String} {bracket : Bracket} {exprs : List Expr}
    {expr : Expr} (opened : Runs [] left [bracket]) (closed : Runs [bracket] right [])
    (ends : right ≠ "")
    (code : expr.render = left ++ ", ".intercalate (Expr.renderAll exprs) ++ right)
    (inside : (Reading.items exprs).Delimits) : (Reading.items [expr]).Delimits := by
  have parts := inside_commas inside
  rw [delimits_item, code]
  exact .of_append ends ((opened.append (parts _ _)).append closed)

/-- The elements that a key is applied to. -/
theorem Reading.delimited_elements {var : String} {collection : Expr} {predicate : Option Expr}
    (bound : Delimited var) (source : (Reading.source collection predicate).Delimits) :
    Delimited (filtered var collection.render (Expr.renderOption predicate)) :=
  delimited_filtered bound source.1 source.2

/-- Everything that a formula is read as has delimited code: by induction over the rules, with the
code of a node as a function of the codes of its parts. -/
theorem delimits_of_reads {scope : Scope} {tokens : List Token} {reading : Reading}
    (reads : Reads scope tokens reading) (lexed : Lexed tokens)
    (receiver : Plain scope.receiverText) : reading.Delimits := by
  -- The receiver changes inside a clause, and there it is a word again.
  induction reads with
  | number kind =>
    rw [lexed_cons, kind] at lexed
    exact Reading.delimits_item.2 (plain_of_isNumeral lexed.1).delimited
  | text kind =>
    rw [lexed_cons, kind] at lexed
    exact Reading.delimits_item.2 (delimited_of_isQuoted lexed.1)
  | literal kind known => exact Reading.delimits_item.2 (delimited_of_literal? known)
  | @reference scope tokens names path text dotted resolved =>
    have words := plain_of_referenceNames? lexed dotted
    have parts := Scope.resolve_forall Scope.plain_entity receiver words
    unfold Scope.value at resolved
    simp only at resolved
    split at resolved
    · cases resolved
    · cases resolved
      exact Reading.delimits_item.2 (Path.plain_render parts.1 parts.2).delimited
  | group opens closes inside ih =>
    simp only [lexed_cons, lexed_append, List.cons_append] at lexed
    exact ih lexed.2.1 receiver
  | tuple opens closes inside several ih =>
    simp only [lexed_cons, lexed_append, List.cons_append] at lexed
    exact Reading.delimits_bracketed runs_open runs_close (by simp) rfl (ih lexed.2.1 receiver)
  | list opens closes inside ih =>
    simp only [lexed_cons, lexed_append, List.cons_append] at lexed
    have opened : Runs [] "[" [.square] := rfl
    have closed : Runs [.square] "]" [] := rfl
    exact Reading.delimits_bracketed opened closed (by simp) rfl (ih lexed.2.1 receiver)
  | nothing => simp [Reading.Delimits, Expr.renderAll]
  | more first kind others ihFirst ihOthers =>
    simp only [lexed_cons, lexed_append] at lexed
    have head := Reading.delimits_item.1 (ihFirst lexed.1 receiver)
    have tail := ihOthers lexed.2.2 receiver
    exact List.forall_mem_cons.2 ⟨head, tail⟩
  | not kind operand ih =>
    have inner := Reading.delimits_item.1 (ih (lexed_cons.1 lexed).2 receiver)
    have opened : Runs [] "(not " [.round] := rfl
    apply Reading.delimits_item.2
    exact .of_append (by simp) ((opened.append (inner.runs _)).append runs_close)
  | negate kind operand ih =>
    have inner := Reading.delimits_item.1 (ih (lexed_cons.1 lexed).2 receiver)
    exact Reading.delimits_item.2 (delimited_negationCode inner)
  | positive kind operand ih => exact ih (lexed_cons.1 lexed).2 receiver
  | binary kind first second ihFirst ihSecond =>
    simp only [lexed_cons, lexed_append] at lexed
    have left := Reading.delimits_item.1 (ihFirst lexed.1 receiver)
    have right := Reading.delimits_item.1 (ihSecond lexed.2.2 receiver)
    exact Reading.delimits_item.2 (BinaryOp.delimited_code _ left right)
  | conditional isIf opens closes isThen isElse test first second ihTest ihFirst ihSecond =>
    simp only [lexed_cons, lexed_append] at lexed
    obtain ⟨-, -, insideTest, -, -, insideFirst, -, insideSecond⟩ := lexed
    have condition := Reading.delimits_item.1 (ihTest insideTest receiver)
    have yes := Reading.delimits_item.1 (ihFirst insideFirst receiver)
    have no := Reading.delimits_item.1 (ihSecond insideSecond receiver)
    exact Reading.delimits_item.2 (delimited_conditionalCode condition yes no)
  | call kind opens closes inside ih =>
    simp only [lexed_cons, lexed_append] at lexed
    exact Reading.delimits_item.2 (ih lexed.2.2.1 receiver)
  | positional found _ shape arity parts ih =>
    exact Signature.delimited_fill found (ih lexed receiver) (by simp)
  | @overMember scope name member signature tokens comma token expr found _ shape collection kind
      named ih =>
    simp only [lexed_cons, lexed_append] at lexed
    have source := Reading.delimits_item.1 (ih lexed.1 receiver)
    have word := (plain_of_name? lexed.2.2.1 (by rw [named]; rfl)).delimited
    have var := scope.plain_nextVar.delimited.inside
    exact Signature.delimited_fill found (by simpa using ⟨source, word⟩) (by simpa using var)
  | keyword kind named known equals given ih =>
    simp only [lexed_cons] at lexed
    exact Reading.delimits_item.1 (ih lexed.2.2.2 receiver)
  | wholeArray found _ shape target ih =>
    have array := Reading.delimits_item.1 (ih lexed receiver)
    exact Signature.delimited_axisCode found array (by simp [Expr.renderOption])
  | alongAxis found _ shape target given ihTarget ihGiven =>
    have array := Reading.delimits_item.1 (ihTarget (lexed_append.1 lexed).1 receiver)
    have axis : Delimited _ := ihGiven (lexed_append.1 lexed).2 receiver
    exact Signature.delimited_axisCode found array (by simpa [Expr.renderOption] using axis)
  | @slice scope name signature tokens first second options expr axis index found _ shape inRange
      target along place order ihTarget ihAlong ihPlace =>
    obtain ⟨front, options⟩ := lexed_append.1 lexed
    have both : Lexed first ∧ Lexed second := forall_options order options
    have array := Reading.delimits_item.1 (ihTarget front receiver)
    exact Signature.delimited_sliceCode found array (ihAlong both.1 receiver)
      (ihPlace both.2 receiver)
  | receiver => exact receiver.delimited
  | named dotted resolved =>
    exact Scope.delimited_collection receiver (plain_of_referenceNames? lexed dotted) resolved
  | computed given _ ih => exact Reading.delimits_item.1 (ih lexed receiver)
  | absent => simp [Reading.Delimits, Expr.renderOption]
  | present kind given ih =>
    have inner := Reading.delimits_item.1 (ih (lexed_cons.1 lexed).2 receiver)
    simpa [Reading.Delimits, Expr.renderOption] using inner
  | @reduce scope name reducer before middle behind collection predicate projection known source
      test value _ ihSource ihTest ihValue =>
    simp only [lexed_append] at lexed
    have var := scope.plain_nextVar
    exact reducer.delimited_code var.delimited (ihSource lexed.1.1 receiver)
      (ihTest lexed.1.2 var) (ihValue lexed.2 var)
  | ownSource => exact ⟨receiver.delimited, by simp [Expr.renderOption]⟩
  | @givenSource scope comma before behind collection predicate source test kind _ ihSource
      ihTest =>
    simp only [lexed_append] at lexed
    exact ⟨ihSource lexed.1.1 receiver, ihTest lexed.1.2 scope.plain_nextVar⟩
  | key named kind body ih =>
    simp only [lexed_cons] at lexed
    have word := plain_of_name? lexed.1 (by rw [named]; rfl)
    exact ⟨word.delimited, Reading.delimits_item.1 (ih lexed.2.2 word)⟩
  | @extreme scope name parameter which before behind collection body predicate known source chosen
      ihSource ihChosen =>
    have elements := Reading.delimited_elements scope.plain_nextVar.delimited
      (ihSource (lexed_append.1 lexed).1 receiver)
    have key := ihChosen (lexed_append.1 lexed).2 receiver
    exact which.delimited_code elements key.1 key.2
  | @top scope parameter comma first before behind count collection body predicate number kind
      source chosen ihNumber ihSource ihChosen =>
    simp only [lexed_cons, lexed_append] at lexed
    have count := Reading.delimits_item.1 (ihNumber lexed.1 receiver)
    have elements := Reading.delimited_elements scope.plain_nextVar.delimited
      (ihSource lexed.2.2.1 receiver)
    have key := ihChosen lexed.2.2.2 receiver
    exact delimited_topCode count elements key.1 key.2

namespace Formula

/-- The code of every formula delimits itself, and so it is contained in any code that it is put
into. -/
theorem compile_delimited {formula : String} {fragment : Fragment}
    (success : (compile formula).result = .ok fragment) :
    Delimited fragment.code ∧ Contained fragment.code := by
  have delimited : Delimited fragment.code := by
    obtain ⟨expr, parsed, rfl⟩ := compile_eq_ok.1 success
    obtain ⟨tokens, lexed, ⟨-, rfl⟩ | reads⟩ := reads_of_parse parsed
    · exact (by decide : Delimited "None")
    · have reading := delimits_of_reads reads (tokenize_lexed lexed) Scope.plain_entity
      exact Reading.delimits_item.1 reading
  exact ⟨delimited, delimited.contained⟩

/-- A literal that would open a bracket and separate arguments if it were code. -/
theorem compile_delimited_literal :
    ∃ fragment,
      (compile "TOPN(2, orders WHERE label = \"a, (b\", o => -o.price)").result = .ok fragment ∧
        fragment.code =
          "sorted((item for item in self.orders if (item.label == \"a, (b\")), " ++
            "key=lambda o: (-o.price), reverse=True)[:2]" ∧
        Delimited fragment.code ∧ Contained fragment.code := by
  have success : (compile "TOPN(2, orders WHERE label = \"a, (b\", o => -o.price)").result =
      .ok ⟨"sorted((item for item in self.orders if (item.label == \"a, (b\")), " ++
        "key=lambda o: (-o.price), reverse=True)[:2]", .none⟩ :=
    eq_ok_of_toOption (by decide +kernel)
  exact ⟨_, success, rfl, compile_delimited success⟩

end Formula

end Formulary
