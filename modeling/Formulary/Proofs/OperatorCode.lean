import Formulary.Proofs.Lexed
import Formulary.Proofs.Precedence

set_option autoImplicit false

namespace Formulary

namespace Text

/-- Characters that code can start with and a number can not. -/
def starters : List Char := ['(', '-', '"', '\'', 's']

theorem isUnsignedNumber_eq_false {text : String} {first : Char} {rest : List Char}
    (spelled : text.toList = first :: rest) (starter : first ∈ starters) :
    isUnsignedNumber text = false := by
  have notDigit : first.isDigit = false := by
    simpa using List.all_eq_true.1 (by decide : starters.all (!·.isDigit) = true) first starter
  have notMark : first ≠ '.' ∧ first ≠ '+' := by
    constructor <;> rintro rfl <;> revert starter <;> decide
  have notLetter : first.toLower ≠ 'i' ∧ first.toLower ≠ 'n' := by
    have lower : starters.all (fun c => c.toLower != 'i' && c.toLower != 'n') = true := by decide
    simpa using List.all_eq_true.1 lower first starter
  have finite : isNonFinite (first :: rest) = false := by
    have lower : (String.ofList (first :: rest)).toLower.toList =
        first.toLower :: rest.map Char.toLower := by
      simp [String.toLower, String.toList_map]
    simp only [isNonFinite, List.contains_eq_mem, decide_eq_false_iff_not, List.mem_cons,
      List.not_mem_nil, or_false, not_or]
    refine ⟨?_, ?_, ?_⟩
    · intro same
      rw [same] at lower
      exact notLetter.1 (List.cons.inj lower).1.symm
    · intro same
      rw [same] at lower
      exact notLetter.1 (List.cons.inj lower).1.symm
    · intro same
      rw [same] at lower
      exact notLetter.2 (List.cons.inj lower).1.symm
  have whole : isDecimal (first :: rest) = false := by
    simp only [isDecimal, List.takeWhile_cons, List.dropWhile_cons, notDigit, Bool.false_eq_true,
      ↓reduceIte]
    split <;> simp_all
  unfold isUnsignedNumber
  rw [spelled]
  split
  · simp_all
  · rw [finite, whole]
    rfl

end Text

namespace Operators

namespace Tree

/-- How an operator is spelled in code. -/
def spelling : BinaryOp → String
  | .or => "or"
  | .and => "and"
  | .equal => "=="
  | .notEqual => "!="
  | .less => "<"
  | .lessEqual => "<="
  | .greater => ">"
  | .greaterEqual => ">="
  | .isIn => "in"
  | .add => "+"
  | .subtract => "-"
  | .multiply => "*"
  | .divide => "/"
  | .power => "**"

/-- How it is spelled in front of a right operand. Equality with nothing is identity. -/
def spellingBefore (right : String) : BinaryOp → String
  | .equal => if right = "None" then "is" else "=="
  | .notEqual => if right = "None" then "is not" else "!="
  | op => spelling op

/-- A name as code: a literal in any mix of upper and lower case, the entity, or one of its
members. -/
def nameCode (name : String) : String :=
  match name.toLower with
  | "true" => "True"
  | "false" => "False"
  | "null" => "None"
  | "none" => "None"
  | _ => if name = "this" then "self" else "self." ++ name

/-- A number, whatever brackets and plus signs stand around it. -/
def isNumeral : Tree → Bool
  | number _ => true
  | group inside => inside.isNumeral
  | plus operand => operand.isNumeral
  | _ => false

def code : Tree → String
  | number digits => digits
  | text literal => literal
  | name spelled => nameCode spelled
  | group inside => inside.code
  | not operand => "(not " ++ operand.code ++ ")"
  | minus operand =>
    if operand.isNumeral then "-" ++ operand.code else "(-" ++ operand.code ++ ")"
  | plus operand => operand.code
  | binary op left right =>
    "(" ++ left.code ++ " " ++ spellingBefore right.code op ++ " " ++ right.code ++ ")"
  | applied op left right =>
    "(" ++ left.code ++ " " ++ spellingBefore right.code op ++ " " ++ right.code ++ ")"

/-- A tree with texts that the lexer takes, where only operators that have a function are called. -/
def Valid : Tree → Prop
  | number digits => Text.IsNumeral digits.toList
  | text literal => Text.IsQuoted literal.toList
  | name spelled => Text.IsWord spelled.toList
  | group inside => inside.Valid
  | not operand => operand.Valid
  | minus operand => operand.Valid
  | plus operand => operand.Valid
  | binary _ left right => left.Valid ∧ right.Valid
  | applied op left right => op ∈ calledOperators ∧ left.Valid ∧ right.Valid

theorem isUnsignedNumber_nameCode (name : String) :
    Text.isUnsignedNumber (nameCode name) = false := by
  unfold nameCode
  split
  · cbv
  · cbv
  · cbv
  · cbv
  · split
    · cbv
    · have spelled : ("self." ++ name).toList = 's' :: ("elf.".toList ++ name.toList) := by simp
      exact Text.isUnsignedNumber_eq_false spelled (by decide)

/-- The code of a tree reads as an unsigned number if and only if the tree is one. -/
theorem isUnsignedNumber_code {tree : Tree} (valid : tree.Valid) :
    Text.isUnsignedNumber tree.code = tree.isNumeral := by
  have opened {text : String} {rest : List Char} (spelled : text.toList = '(' :: rest) :
      Text.isUnsignedNumber text = false :=
    Text.isUnsignedNumber_eq_false spelled (by decide)
  induction tree with
  | number digits => exact Text.isUnsignedNumber_of_isNumeral valid
  | text literal =>
    obtain ⟨quote, body, spelled, isQuote, -⟩ := valid
    refine Text.isUnsignedNumber_eq_false spelled ?_
    rcases isQuote with rfl | rfl <;> decide
  | name spelled => exact isUnsignedNumber_nameCode spelled
  | group inside ih => exact ih valid
  | not operand ih => exact opened (by simp [code]; rfl)
  | minus operand ih =>
    rw [code]
    split
    · exact Text.isUnsignedNumber_eq_false (String.toList_append ..) (by decide)
    · exact opened (by simp; rfl)
  | plus operand ih => exact ih valid
  | binary op left right _ _ => exact opened (by simp [code]; rfl)
  | applied op left right _ _ => exact opened (by simp [code]; rfl)

theorem symbol_eq (op : BinaryOp) (right : String) : op.symbol right = spellingBefore right op := by
  cases op <;> rfl

theorem symbol_of_called {op : BinaryOp} (called : op ∈ calledOperators) (right : String) :
    op.symbol "" = spellingBefore right op := by
  simp only [calledOperators, List.mem_cons, List.not_mem_nil, or_false] at called
  rcases called with rfl | rfl | rfl | rfl | rfl <;> rfl

theorem render_member {spelled : String} (other : spelled ≠ "this") :
    (Scope.entity.resolve [spelled]).render = "self." ++ spelled := by
  have member : Scope.entity.resolve [spelled] = ⟨.entity, [spelled]⟩ := by
    rw [Scope.resolve, if_neg other, if_neg (by simp [Scope.binds, Scope.entity])]
    rfl
  have joined : "self" ++ "." = "self." := rfl
  rw [member, Path.render, List.foldl_cons, List.foldl_nil, Receiver.text, joined]

theorem render_name (spelled : String) : (name spelled).expr.render = nameCode spelled := by
  unfold nameCode
  split
  · rename_i known
    rw [expr, Grammar.literal?, known]
    rfl
  · rename_i known
    rw [expr, Grammar.literal?, known]
    rfl
  · rename_i known
    rw [expr, Grammar.literal?, known]
    rfl
  · rename_i known
    rw [expr, Grammar.literal?, known]
    rfl
  · have ordinary : Grammar.literal? spelled = none := by
      unfold Grammar.literal?
      split <;> trivial
    rw [expr, ordinary, Option.getD_none, Expr.render, Collection.render]
    by_cases isThis : spelled = "this"
    · rw [if_pos isThis, isThis]
      rfl
    · rw [if_neg isThis, render_member isThis]

/-- An operator that is called is written like one that is not. -/
theorem fill_between (name sign left right : String) :
    (Signature.between name sign).template.fill [left, right] [] =
      "(" ++ left ++ " " ++ sign ++ " " ++ right ++ ")" := by
  have first : Slot.ofKey "0" = .argument 0 := by decide
  have second : Slot.ofKey "1" = .argument 1 := by decide
  simp [Signature.between, Template.fill, Piece.fill, first, second, Slot.fill, String.append_assoc]

/-- What the readers make of an expression has its code. -/
theorem render_expr {tree : Tree} (valid : tree.Valid) : tree.expr.render = tree.code := by
  induction tree with
  | number digits => rfl
  | text literal => rfl
  | name spelled => exact render_name spelled
  | group inside ih => exact ih valid
  | not operand ih => rw [expr, Expr.render, ih valid, code]
  | minus operand ih =>
    have inner : operand.Valid := valid
    rw [expr, Expr.render, ih inner, negationCode, isUnsignedNumber_code inner, code]
  | plus operand ih => exact ih valid
  | binary op left right ihLeft ihRight =>
    rw [expr, Expr.render, ihLeft valid.1, ihRight valid.2, BinaryOp.code, symbol_eq, code]
  | applied op left right ihLeft ihRight =>
    obtain ⟨called, validLeft, validRight⟩ := valid
    rw [expr, Expr.render, Expr.renderAll, Expr.renderAll, Expr.renderAll, ihLeft validLeft,
      ihRight validRight, fill_between, symbol_of_called called, code]

theorem needs_expr (tree : Tree) : tree.expr.needs = .none := by
  have joined : Needs.join .none .none = .none := by decide
  induction tree with
  | number digits => rfl
  | text literal => rfl
  | name spelled =>
    rw [expr, Grammar.literal?]
    split <;> rfl
  | group inside ih => exact ih
  | not operand ih => exact ih
  | minus operand ih => exact ih
  | plus operand ih => exact ih
  | binary op left right ihLeft ihRight => rw [expr, Expr.needs, ihLeft, ihRight, joined]
  | applied op left right ihLeft ihRight =>
    have plain : Expr.callNeeds (Signature.between (functionName op) (op.symbol "")) = .none := rfl
    rw [expr, Expr.needs, Expr.needsAll, Expr.needsAll, Expr.needsAll, ihLeft, ihRight, plain]
    decide

end Tree

theorem Derives.valid {calls : Bool} {part : Part} {tokens : List Token}
    (derives : Derives calls part tokens) (lexed : Formulary.Lexed tokens) :
    match part with
    | .whole _ tree => tree.Valid
    | .rest _ left tree => left.Valid → tree.Valid := by
  induction derives with
  | @atom token tree found =>
    have held := (lexed_cons.1 lexed).1
    unfold Tree.ofKind? at found
    split at found
    · rename_i kind
      cases found
      rw [kind] at held
      exact held
    · rename_i kind
      cases found
      rw [kind] at held
      exact held
    · rename_i kind
      cases found
      rw [kind] at held
      exact held
    · cases found
  | group _ _ _ ih =>
    simp only [lexed_cons, lexed_append] at lexed
    exact ih lexed.2.1
  | applied _ _ called _ _ _ _ _ ihFirst ihSecond =>
    simp only [lexed_cons, lexed_append] at lexed
    exact ⟨(calledOperator?_eq_some called).1, ihFirst lexed.2.2.1, ihSecond lexed.2.2.2.2.1⟩
  | base _ ih => exact ih lexed
  | raised _ _ _ ihFirst ihSecond =>
    simp only [lexed_cons, lexed_append] at lexed
    exact ⟨ihFirst lexed.1, ihSecond lexed.2.2⟩
  | unsigned _ ih => exact ih lexed
  | minus _ _ ih => exact ih (lexed_cons.1 lexed).2
  | plus _ _ ih => exact ih (lexed_cons.1 lexed).2
  | alone _ ih => exact ih lexed
  | compared _ _ _ ihFirst ihSecond =>
    simp only [lexed_cons, lexed_append] at lexed
    exact ⟨ihFirst lexed.1, ihSecond lexed.2.2⟩
  | positive _ ih => exact ih lexed
  | not _ _ ih => exact ih (lexed_cons.1 lexed).2
  | chain _ _ ihFirst ihOthers =>
    simp only [lexed_append] at lexed
    exact ihOthers lexed.2 (ihFirst lexed.1)
  | done => exact id
  | step _ _ _ ihNext ihOthers =>
    simp only [lexed_cons, lexed_append] at lexed
    exact fun left => ihOthers lexed.2.2 ⟨left, ihNext lexed.2.1⟩

end Operators

namespace Formula

open Operators

/-- How a whole formula is read, once its tokens have a derivation. -/
theorem readSlice_of_derives {calls : Bool} {source : List Char} {tokens : List Token} {tree : Tree}
    {expr : Expr} (derives : Derives calls (.whole (.loop .disjunction) tree) tokens) :
    (readSlice source .entity tokens).result = .ok expr ↔
      tree.nesting + 1 ≤ maxNesting ∧ expr = tree.expr := by
  have read : ReadAs (.loop .disjunction) tree tokens := derives.readAs
  have taken := @ReadAs.deeper _ _ .expression read maxNesting
    ⟨source, .entity, endOffset tokens⟩ [] rfl Level.stops_nil expr []
  rw [List.append_nil] at taken
  rw [readSlice, readWhole_eq_ok, taken]
  simp [derives.startsAt.ne_nil]

/-- A formula whose tokens have a derivation is accepted unless it is nested too deep, and then has
the code of the derivation. -/
theorem compile_of_derives {calls : Bool} {formula : String} {tokens : List Token} {tree : Tree}
    {fragment : Fragment} (lexed : tokenize formula = .ok tokens)
    (derives : Derives calls (.whole (.loop .disjunction) tree) tokens) :
    (compile formula).result = .ok fragment ↔
      tree.nesting + 1 ≤ maxNesting ∧ fragment = .plain tree.code := by
  have valid : tree.Valid := derives.valid (tokenize_lexed lexed)
  have written : tree.expr.fragment = .plain tree.code := by
    rw [Expr.fragment, tree.needs_expr, Tree.render_expr valid, Fragment.plain]
  rw [compile_eq_ok]
  constructor
  · rintro ⟨expr, parsed, rfl⟩
    obtain ⟨found, same, ⟨rfl, -⟩ | ⟨-, success⟩⟩ := parse_eq_ok.1 parsed
    · rw [lexed] at same
      cases same
      exact absurd rfl derives.startsAt.ne_nil
    · rw [lexed] at same
      cases same
      obtain ⟨fits, rfl⟩ := (readSlice_of_derives derives).1 success
      exact ⟨fits, written⟩
  · rintro ⟨fits, rfl⟩
    have success : (readSlice formula.toList .entity tokens).result = .ok tree.expr :=
      (readSlice_of_derives derives).2 ⟨fits, rfl⟩
    exact ⟨tree.expr, parse_eq_ok.2 ⟨tokens, lexed, .inr ⟨derives.startsAt.ne_nil, success⟩⟩,
      written.symm⟩

/-- A formula of operators is accepted if and only if its tokens derive from the grammar and are
nested at most 64 deep, and then its code is that of the derivation, of which there is only one. -/
theorem compile_operators {formula : String} {tokens : List Token}
    (lexed : tokenize formula = .ok tokens) (nonempty : tokens ≠ [])
    (only : onlyOperators tokens = true) :
    (∀ fragment, (compile formula).result = .ok fragment ↔
      ∃ tree, Derives false (.whole (.loop .disjunction) tree) tokens ∧ tree.nesting + 1 ≤ 64 ∧
        fragment = .plain tree.code) ∧
    ∀ tree other, Derives false (.whole (.loop .disjunction) tree) tokens →
      Derives false (.whole (.loop .disjunction) other) tokens → tree = other := by
  constructor
  · intro fragment
    constructor
    · intro success
      obtain ⟨expr, parsed, -⟩ := compile_eq_ok.1 success
      obtain ⟨found, same, ⟨rfl, -⟩ | ⟨-, read⟩⟩ := parse_eq_ok.1 parsed
      · rw [lexed] at same
        cases same
        exact absurd rfl nonempty
      · rw [lexed] at same
        cases same
        have taken := (readWhole_eq_ok.1 read).2
        obtain ⟨part, tree, whole, derives⟩ := sound_readerAt maxNesting .expression only taken
        rw [List.append_nil] at whole
        subst whole
        exact ⟨tree, derives, (compile_of_derives lexed derives).1 success⟩
    · rintro ⟨tree, derives, fits, rfl⟩
      exact (compile_of_derives lexed derives).2 ⟨fits, rfl⟩
  · intro tree other one two
    exact one.unique two

/-- A sign before a power, a power of a signed group and a comparison with nothing. -/
theorem compile_operators_power :
    ∃ tokens, tokenize "-2 ^ -(3) = NULL" = .ok tokens ∧ tokens ≠ [] ∧
      onlyOperators tokens = true ∧
      (compile "-2 ^ -(3) = NULL").result = .ok (.plain "((-(2 ** -3)) is None)") ∧
      ∃ tree, Derives false (.whole (.loop .disjunction) tree) tokens ∧ tree.nesting + 1 ≤ 64 ∧
        .plain "((-(2 ** -3)) is None)" = Fragment.plain tree.code := by
  have lexed : tokenize "-2 ^ -(3) = NULL" = .ok
      [⟨.minus, 0, 1⟩, ⟨.number "2", 1, 2⟩, ⟨.caret, 3, 4⟩, ⟨.minus, 5, 6⟩, ⟨.openParen, 6, 7⟩,
        ⟨.number "3", 7, 8⟩, ⟨.closeParen, 8, 9⟩, ⟨.equal, 10, 11⟩, ⟨.ident "NULL", 12, 16⟩] :=
    eq_ok_of_toOption (by decide +kernel)
  have success : (compile "-2 ^ -(3) = NULL").result = .ok (.plain "((-(2 ** -3)) is None)") :=
    eq_ok_of_toOption (by decide +kernel)
  have read := compile_operators lexed (by decide) (by decide)
  exact ⟨_, lexed, by decide, by decide, success, (read.1 _).1 success⟩

end Formula

end Formulary
