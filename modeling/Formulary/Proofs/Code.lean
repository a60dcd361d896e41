import Formulary.Formula.Expr

set_option autoImplicit false

namespace Formulary

inductive Code where
  /-- Text of the writer: marks, words of the host, and names of what the host provides. -/
  | fixed (text : String)
  /-- Text of the formula that is not looked up as a name: a literal, a member, or the name that a
  comprehension gives its elements. -/
  | spelled (text : String)
  /-- A name for the entity or for an element. -/
  | receiver (receiver : Receiver)
  | append (first second : Code)
  /-- Code inside a comprehension that runs this variable over the elements. -/
  | element (var : String) (part : Code)
  /-- What follows the word that introduces a key: its parameter and its body. -/
  | key (parameter : String) (body : Code)
  deriving DecidableEq, Repr

namespace Code

instance : Append Code := ⟨append⟩

/-- The code without its marks. -/
def text : Code → String
  | fixed text => text
  | spelled text => text
  | receiver found => found.text
  | append first second => first.text ++ second.text
  | element _ part => part.text
  | key parameter body => parameter ++ ": " ++ body.text

@[simp] theorem text_append (first second : Code) :
    (first ++ second).text = first.text ++ second.text := rfl

/-- Pieces with commas between them. -/
def commas : List Code → Code
  | [] => .fixed ""
  | [part] => part
  | part :: next :: parts => part ++ .fixed ", " ++ commas (next :: parts)

theorem text_commas (parts : List Code) :
    (commas parts).text = ", ".intercalate (parts.map text) := by
  induction parts with
  | nil => rfl
  | cons part parts ih =>
    cases parts with
    | nil => simp [commas]
    | cons next parts =>
      rw [List.map_cons, List.map_cons, String.intercalate_cons_cons, ← List.map_cons, ← ih]
      rfl

def binary (op : BinaryOp) (left right : Code) : Code :=
  .fixed "(" ++ left ++ .fixed " " ++ .fixed (op.symbol right.text) ++ .fixed " " ++ right ++
    .fixed ")"

def negation (operand : Code) : Code :=
  if Text.isUnsignedNumber operand.text then .fixed "-" ++ operand
  else .fixed "(-" ++ operand ++ .fixed ")"

theorem text_negation (operand : Code) : (negation operand).text = negationCode operand.text := by
  unfold negation negationCode
  split <;> rfl

def conditional (condition yes no : Code) : Code :=
  .fixed "(" ++ yes ++ .fixed " if " ++ condition ++ .fixed " else " ++ no ++ .fixed ")"

def slot (arguments : List Code) (named : List (String × Code)) : Slot → Code
  | .all => commas arguments
  | .argument index => (arguments[index]?).getD (.fixed "")
  | .named wanted => (named.lookup wanted).getD (.fixed "")

def fill (arguments : List Code) (named : List (String × Code)) : Template → Code
  | [] => .fixed ""
  | .literal text :: rest => .fixed text ++ fill arguments named rest
  | .hole wanted :: rest => slot arguments named (Slot.ofKey wanted) ++ fill arguments named rest

theorem text_lookup (named : List (String × Code)) (wanted : String) :
    ((named.lookup wanted).getD (.fixed "")).text =
      ((named.map fun entry => (entry.1, entry.2.text)).lookup wanted).getD "" := by
  induction named with
  | nil => rfl
  | cons entry named ih =>
    rw [List.map_cons, List.lookup_cons, List.lookup_cons]
    cases wanted == entry.1 with
    | true => rfl
    | false => exact ih

theorem text_slot (arguments : List Code) (named : List (String × Code)) (wanted : Slot) :
    (slot arguments named wanted).text =
      wanted.fill (arguments.map text) (named.map fun entry => (entry.1, entry.2.text)) := by
  cases wanted with
  | all => exact text_commas arguments
  | argument index =>
    rw [slot, Slot.fill, List.getElem?_map]
    cases arguments[index]? <;> rfl
  | named name => exact text_lookup named name

theorem text_fill (arguments : List Code) (named : List (String × Code)) (template : Template) :
    (fill arguments named template).text =
      template.fill (arguments.map text) (named.map fun entry => (entry.1, entry.2.text)) := by
  induction template with
  | nil => rfl
  | cons piece rest ih =>
    cases piece with
    | literal literal => rw [fill, text_append, ih, Template.fill, Piece.fill, text]
    | hole wanted => rw [fill, text_append, ih, Template.fill, Piece.fill, text_slot]

/-- The variable stands in the template where it is bound and where it is used. -/
def overMember (signature : Signature) (collection : Code) (member var : String) : Code :=
  fill [collection, .spelled member] [("var", .element var (.receiver (.element var)))]
    signature.template

def alongAxis (signature : Signature) (target : Code) : Option Code → Code
  | none => fill [target] [] signature.template
  | some axis => fill [target] [("axis", .fixed ", axis=" ++ axis)] signature.template

def indexAlong (target : Code) (axis : Int) (index : Code) : Code :=
  if 0 ≤ axis then
    target ++ .fixed "[" ++ .fixed (repeated axis.natAbs ":, ") ++ index ++ .fixed "]"
  else
    target ++ .fixed "[..., " ++ index ++ .fixed (repeated (axis.natAbs - 1) ", :") ++ .fixed "]"

def slice (signature : Signature) (target axis index : Code) : Code :=
  match literalAxis? axis.text with
  | some n => indexAlong target n index
  | none => fill [target] [("axis", axis), ("index", index)] signature.template

theorem text_alongAxis (signature : Signature) (target : Code) (axis : Option Code) :
    (alongAxis signature target axis).text =
      axisCode signature target.text (axis.map text) := by
  cases axis with
  | none => exact text_fill _ _ _
  | some axis => exact text_fill _ _ _

theorem text_slice (signature : Signature) (target axis index : Code) :
    (slice signature target axis index).text =
      sliceCode signature target.text axis.text index.text := by
  unfold slice sliceCode
  cases literalAxis? axis.text with
  | none => exact text_fill _ _ _
  | some n =>
    dsimp only
    unfold indexAlong Formulary.indexAlong
    split <;> rfl

/-- A value for each element, both it and the test in the scope of the variable. -/
def generator (value : Code) (var : String) (collection : Code) (predicate : Option Code) : Code :=
  .element var value ++ .fixed " for " ++ .spelled var ++ .fixed " in " ++ collection ++
    match predicate with
    | none => .fixed ""
    | some test => .fixed " if " ++ .element var test

def filtered (var : String) (collection : Code) (predicate : Option Code) : Code :=
  match predicate with
  | none => collection
  | some test =>
    .fixed "(" ++ generator (.receiver (.element var)) var collection (some test) ++ .fixed ")"

theorem text_filtered (var : String) (collection : Code) (predicate : Option Code) :
    (filtered var collection predicate).text =
      Formulary.filtered var collection.text (predicate.map text) := by
  cases predicate <;> rfl

def apply (function var : String) (collection : Code) (predicate projection : Option Code) :
    Code :=
  match predicate, projection with
  | none, none => .fixed function ++ .fixed "(" ++ collection ++ .fixed ")"
  | _, _ =>
    .fixed function ++ .fixed "(" ++
      generator (projection.getD (.receiver (.element var))) var collection predicate ++ .fixed ")"

def count (var : String) (collection : Code) (predicate projection : Option Code) : Code :=
  match predicate, projection with
  | none, none => .fixed "len(" ++ collection ++ .fixed ")"
  | some test, none =>
    .fixed "sum(" ++ generator (.fixed "1") var collection (some test) ++ .fixed ")"
  | none, some value =>
    .fixed "sum(" ++
      generator (.fixed "1") var collection (some (value ++ .fixed " is not None")) ++ .fixed ")"
  | some test, some value =>
    .fixed "sum(" ++
      generator (.fixed "1") var collection
        (some (test ++ .fixed " and " ++ value ++ .fixed " is not None")) ++ .fixed ")"

def any (var : String) (collection : Code) (predicate projection : Option Code) : Code :=
  match predicate, projection with
  | none, none => .fixed "(len(" ++ collection ++ .fixed ") > 0)"
  | _, _ =>
    .fixed "any(" ++ generator (projection.getD (.fixed "True")) var collection predicate ++
      .fixed ")"

def reduction (reducer : Reducer) (var : String) (collection : Code)
    (predicate projection : Option Code) : Code :=
  match reducer with
  | .count => count var collection predicate projection
  | .sum => apply "sum" var collection predicate projection
  | .mean => apply "statistics.mean" var collection predicate projection
  | .mode => apply "statistics.mode" var collection predicate projection
  | .exists => any var collection predicate projection

theorem text_reduction (reducer : Reducer) (var : String) (collection : Code)
    (predicate projection : Option Code) :
    (reduction reducer var collection predicate projection).text =
      reducer.code var collection.text (predicate.map text) (projection.map text) := by
  cases reducer <;> cases predicate <;> cases projection <;> rfl

def extreme (which : Extreme) (elements : Code) (parameter : String) (body : Code) : Code :=
  .fixed which.function ++ .fixed "(" ++ elements ++ .fixed ", key=lambda " ++
    .key parameter body ++ .fixed ")"

def top (count elements : Code) (parameter : String) (body : Code) : Code :=
  .fixed "sorted(" ++ elements ++ .fixed ", key=lambda " ++ .key parameter body ++
    .fixed ", reverse=True)[:" ++ count ++ .fixed "]"

theorem text_extreme (which : Extreme) (elements : Code) (parameter : String) (body : Code) :
    (extreme which elements parameter body).text =
      which.code elements.text parameter body.text := by
  simp only [extreme, Extreme.code, text_append, text, String.append_assoc]

theorem text_top (count elements : Code) (parameter : String) (body : Code) :
    (top count elements parameter body).text =
      topCode count.text elements.text parameter body.text := by
  simp only [top, topCode, text_append, text, String.append_assoc]

end Code

def Path.code (path : Path) : Code :=
  path.members.foldl (fun code member => code ++ .fixed "." ++ .spelled member)
    (.receiver path.receiver)

theorem Path.text_code (path : Path) : path.code.text = path.render := by
  obtain ⟨receiver, members⟩ := path
  have step (code : Code) (members : List String) :
      (members.foldl (fun code member => code ++ .fixed "." ++ .spelled member) code).text =
        members.foldl (fun text member => text ++ "." ++ member) code.text := by
    induction members generalizing code with
    | nil => rfl
    | cons member members ih => exact ih _
  exact step _ members

def Collection.code : Collection → Code
  | whole path => path.code
  | projected path field var =>
    .fixed "[" ++ .element var (.receiver (.element var)) ++ .fixed "." ++ .spelled field ++
      .fixed " for " ++ .spelled var ++ .fixed " in " ++ path.code ++ .fixed "]"

theorem Collection.text_code (collection : Collection) :
    collection.code.text = collection.render := by
  cases collection with
  | whole path => exact path.text_code
  | projected path field var =>
    simp only [Collection.code, Collection.render, Code.text_append, path.text_code]
    rfl

namespace Expr

mutual

/-- The code of an expression with its names marked. -/
def code : Expr → Code
  | number digits => .spelled digits
  | text literal => .spelled literal
  | boolean true => .fixed "True"
  | boolean false => .fixed "False"
  | null => .fixed "None"
  | reference collection => collection.code
  | not operand => .fixed "(not " ++ operand.code ++ .fixed ")"
  | negate operand => .negation operand.code
  | binary op left right => .binary op left.code right.code
  | conditional condition yes no => .conditional condition.code yes.code no.code
  | tuple items => .fixed "(" ++ .commas (codeAll items) ++ .fixed ")"
  | list items => .fixed "[" ++ .commas (codeAll items) ++ .fixed "]"
  | call signature arguments => .fill (codeAll arguments) [] signature.template
  | overMember signature collection member var =>
    .overMember signature collection.code member var
  | alongAxis signature target axis => .alongAxis signature target.code (codeOption axis)
  | slice signature target axis index => .slice signature target.code axis.code index.code
  | reduce reducer var collection predicate projection =>
    .reduction reducer var collection.code (codeOption predicate) (codeOption projection)
  | extreme which var collection predicate parameter key =>
    .extreme which (.filtered var collection.code (codeOption predicate)) parameter key.code
  | top count var collection predicate parameter key =>
    .top count.code (.filtered var collection.code (codeOption predicate)) parameter key.code

def codeAll : List Expr → List Code
  | [] => []
  | item :: rest => item.code :: codeAll rest

def codeOption : Option Expr → Option Code
  | none => none
  | some expr => some expr.code

end

mutual

/-- Without its marks, the code is that of the expression. -/
theorem text_code : (expr : Expr) → expr.code.text = expr.render
  | number _ => rfl
  | text _ => rfl
  | boolean true => rfl
  | boolean false => rfl
  | null => rfl
  | reference collection => collection.text_code
  | not operand => by
    rw [code, render, ← text_code operand]
    rfl
  | negate operand => by
    rw [code, render, ← text_code operand, Code.text_negation]
  | binary op left right => by
    rw [code, render, ← text_code left, ← text_code right]
    rfl
  | conditional condition yes no => by
    rw [code, render, ← text_code condition, ← text_code yes, ← text_code no]
    rfl
  | tuple items => by
    rw [code, render, ← text_codeAll items, ← Code.text_commas]
    rfl
  | list items => by
    rw [code, render, ← text_codeAll items, ← Code.text_commas]
    rfl
  | call signature arguments => by
    rw [code, render, ← text_codeAll arguments, Code.text_fill]
    rfl
  | overMember signature collection member var => by
    rw [code, render, ← text_code collection]
    exact Code.text_fill _ _ _
  | alongAxis signature target axis => by
    rw [code, render, ← text_code target, ← text_codeOption axis, Code.text_alongAxis]
  | slice signature target axis index => by
    rw [code, render, ← text_code target, ← text_code axis, ← text_code index, Code.text_slice]
  | reduce reducer var collection predicate projection => by
    rw [code, render, ← text_code collection, ← text_codeOption predicate,
      ← text_codeOption projection, Code.text_reduction]
  | extreme which var collection predicate parameter key => by
    rw [code, render, ← text_code collection, ← text_codeOption predicate, ← text_code key,
      Code.text_extreme, Code.text_filtered]
  | top count var collection predicate parameter key => by
    rw [code, render, ← text_code count, ← text_code collection, ← text_codeOption predicate,
      ← text_code key, Code.text_top, Code.text_filtered]

theorem text_codeAll : (items : List Expr) → (codeAll items).map Code.text = renderAll items
  | [] => rfl
  | item :: rest => by
    rw [codeAll, renderAll, List.map_cons, text_code item, text_codeAll rest]

theorem text_codeOption :
    (part : Option Expr) → (codeOption part).map Code.text = renderOption part
  | none => rfl
  | some expr => by
    rw [codeOption, renderOption, Option.map_some, text_code expr]

end

end Expr

end Formulary
