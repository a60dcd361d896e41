import Formulary.Proofs.Host
import Formulary.Proofs.OperatorCode

set_option autoImplicit false

namespace Formulary

namespace Operation

/-- How an operation is spelled in code. -/
def sign : Operation → String
  | add => "+"
  | subtract => "-"
  | multiply => "*"
  | power => "**"

def lexeme : Operation → Host.Lexeme
  | add => .plus
  | subtract => .minus
  | multiply => .times
  | power => .power

end Operation

namespace Arith

def isLiteral : Arith → Bool
  | literal _ => true
  | _ => false

/-- A number with a sign. -/
def isNegated : Arith → Bool
  | negate operand => operand.isLiteral
  | _ => false

/-- Arithmetic as code. Only the sign of a number has no brackets around it. -/
def code : Arith → String
  | literal digits => digits
  | field name => "self." ++ name
  | negate operand =>
    if operand.isLiteral then "-" ++ operand.code else "(-" ++ operand.code ++ ")"
  | binary op left right => "(" ++ left.code ++ " " ++ op.sign ++ " " ++ right.code ++ ")"

/-- Numbers and names that can stand in code. -/
def Valid : Arith → Prop
  | literal digits => Text.IsDigits digits.toList
  | field name => Text.IsWord name.toList
  | negate operand => operand.Valid
  | binary _ left right => left.Valid ∧ right.Valid

/-- A power somewhere raises a negated number. -/
def raisesNegated : Arith → Bool
  | binary op left right =>
    (op == .power && left.isNegated) || left.raisesNegated || right.raisesNegated
  | negate operand => operand.raisesNegated
  | _ => false

/-- What the host takes the code of arithmetic for. The sign of a number that is raised to a power
becomes the sign of the power. -/
def asRead : Arith → Arith
  | binary .power (negate (literal digits)) right =>
    negate (binary .power (literal digits) right.asRead)
  | binary op left right => binary op left.asRead right.asRead
  | negate operand => negate operand.asRead
  | arith => arith

theorem eq_of_isLiteral {arith : Arith} (literal : arith.isLiteral = true) :
    ∃ digits, arith = .literal digits := by
  cases arith with
  | literal digits => exact ⟨digits, rfl⟩
  | _ => cases literal

theorem eq_of_isNegated {arith : Arith} (negated : arith.isNegated = true) :
    ∃ digits, arith = .negate (.literal digits) := by
  cases arith with
  | negate operand =>
    obtain ⟨digits, rfl⟩ := eq_of_isLiteral negated
    exact ⟨digits, rfl⟩
  | _ => cases negated

theorem asRead_binary {op : Operation} {left right : Arith}
    (kept : (op == .power && left.isNegated) = false) :
    (binary op left right).asRead = binary op left.asRead right.asRead := by
  have apart : ∀ digits, op = .power → left = negate (literal digits) → False := by
    rintro digits rfl rfl
    cases kept
  rw [asRead]
  exact apart

/-- The host reads the code of arithmetic as it is meant unless a negated number is raised. -/
theorem asRead_eq_iff (arith : Arith) : arith.asRead = arith ↔ arith.raisesNegated = false := by
  induction arith with
  | literal digits => simp [asRead, raisesNegated]
  | field name => simp [asRead, raisesNegated]
  | negate operand ih => simpa [asRead, raisesNegated] using ih
  | binary op left right ihLeft ihRight =>
    cases raised : op == .power && left.isNegated with
    | true =>
      simp only [Bool.and_eq_true, beq_iff_eq] at raised
      obtain ⟨rfl, negated⟩ := raised
      obtain ⟨digits, rfl⟩ := eq_of_isNegated negated
      simp [asRead, raisesNegated, negated]
    | false =>
      rw [asRead_binary raised, raisesNegated, raised]
      simp [ihLeft, ihRight]

end Arith

namespace Host

/-- Nothing runs together with a gap or a closing bracket. -/
theorem push_append {c : Char} {joint : Lexeme} (apart : joint = .gap ∨ joint = .closing)
    (ahead behind : List Lexeme) :
    push c (ahead ++ joint :: behind) = push c ahead ++ joint :: behind := by
  unfold push
  split
  · rcases ahead with _ | ⟨first, rest⟩
    · rcases apart with rfl | rfl <;> rfl
    · cases first <;> rfl
  · split
    · rcases ahead with _ | ⟨first, rest⟩
      · rcases apart with rfl | rfl <;> rfl
      · cases first <;> rfl
    · rfl

theorem split_append {c : Char} (apart : c = ' ' ∨ c = ')') (ahead behind : List Char) :
    split (ahead ++ c :: behind) = split ahead ++ mark c :: split behind := by
  induction ahead with
  | nil => rcases apart with rfl | rfl <;> rfl
  | cons first ahead ih =>
    have joint : mark c = .gap ∨ mark c = .closing := by
      rcases apart with rfl | rfl
      · exact .inl rfl
      · exact .inr rfl
    change push first (split (ahead ++ c :: behind)) = _
    rw [ih, push_append joint]
    rfl

/-- Characters of a word that touch are one word. -/
theorem split_word {first : Char} {rest : List Char} (start : isWordPart first = true)
    (parts : ∀ c ∈ rest, isWordPart c = true) :
    split (first :: rest) = [.word (first :: rest)] := by
  induction rest generalizing first with
  | nil => simp [split, push, start]
  | cons second rest ih =>
    have others := ih (parts second List.mem_cons_self) (fun c member =>
      parts c (List.mem_cons_of_mem _ member))
    change push first (split (second :: rest)) = _
    rw [others]
    simp [push, start]

theorem lexemes_word {word : String} {first : Char} {rest : List Char}
    (spelled : word.toList = first :: rest) (start : isWordPart first = true)
    (parts : ∀ c ∈ rest, isWordPart c = true) : lexemes word = [.word word.toList] := by
  rw [lexemes, spelled, split_word start parts]
  rfl

theorem lexemes_minus (operand : String) :
    lexemes ("-" ++ operand) = .minus :: lexemes operand := by
  rw [lexemes, String.toList_append]
  rfl

theorem lexemes_negated (operand : String) :
    lexemes ("(-" ++ operand ++ ")") = .opening :: .minus :: (lexemes operand ++ [.closing]) := by
  have spelled : ("(-" ++ operand ++ ")").toList = '(' :: '-' :: (operand.toList ++ [')']) := by
    simp
  have parts : split ('(' :: '-' :: (operand.toList ++ [')'])) =
      .opening :: .minus :: split (operand.toList ++ [')']) := rfl
  rw [lexemes, spelled, parts, split_append (.inr rfl)]
  simp [lexemes, split, mark]

theorem lexemes_binary (left right : String) (op : Operation) :
    lexemes ("(" ++ left ++ " " ++ op.sign ++ " " ++ right ++ ")") =
      .opening :: ((lexemes left ++ op.lexeme :: lexemes right) ++ [.closing]) := by
  have spelled : ("(" ++ left ++ " " ++ op.sign ++ " " ++ right ++ ")").toList =
      '(' :: (left.toList ++ ' ' :: (op.sign.toList ++ ' ' :: (right.toList ++ [')']))) := by
    simp
  have sign : split op.sign.toList = [op.lexeme] := by cases op <;> decide
  have opened (inside : List Char) : split ('(' :: inside) = .opening :: split inside := rfl
  have kept : op.lexeme ≠ .gap := by cases op <;> decide
  rw [lexemes, spelled, opened, split_append (.inl rfl), split_append (.inl rfl),
    split_append (.inr rfl), sign]
  simp [lexemes, split, mark, kept]

theorem reads_literal {digits : String} (valid : Text.IsDigits digits.toList) :
    Reads .primary (lexemes digits) (.literal digits) := by
  obtain ⟨nonempty, all⟩ := valid
  obtain ⟨first, rest, spelled⟩ := List.exists_cons_of_ne_nil nonempty
  have part {c : Char} (member : c ∈ digits.toList) : isWordPart c = true := by
    simp [isWordPart, Char.isAlphanum, List.all_eq_true.1 all c member]
  have word : lexemes digits = [.word digits.toList] := by
    apply lexemes_word spelled
    · exact part (by simp [spelled])
    · intro c member
      exact part (by simp [spelled, member])
  rw [word]
  apply Reads.operand
  simp [operand?, all]

theorem reads_field {name : String} (valid : Text.IsWord name.toList) :
    Reads .primary (lexemes ("self." ++ name)) (.field name) := by
  obtain ⟨first, rest, shape, start, parts⟩ := valid
  have part {c : Char} (member : c ∈ name.toList) : Lexeme.isWordPart c = true := by
    rw [shape, List.mem_cons] at member
    rcases member with rfl | member
    · exact Formulary.Lexeme.isWordPart_of_isWordStart start
    · exact parts c member
  have spelled : ("self." ++ name).toList = 's' :: 'e' :: 'l' :: 'f' :: '.' :: name.toList := by
    simp
  have word : lexemes ("self." ++ name) = [.word ("self." ++ name).toList] := by
    apply lexemes_word spelled (by decide)
    intro c member
    simp only [List.mem_cons] at member
    rcases member with rfl | rfl | rfl | rfl | member
    · decide
    · decide
    · decide
    · decide
    · have := part member
      simp_all [isWordPart, Formulary.Lexeme.isWordPart]
  have plain : '.' ∉ name.toList := by
    intro member
    have := part member
    revert this
    decide
  rw [word, spelled]
  apply Reads.operand
  simp [operand?, plain]

/-- The host reads the code of arithmetic as a factor, and as an operand unless it is a bare
sign and a number. -/
theorem reads_code {arith : Arith} (valid : arith.Valid) :
    Reads .factor (lexemes arith.code) arith.asRead ∧
      (arith.isNegated = false → Reads .primary (lexemes arith.code) arith.asRead) := by
  have whole {lexemes : List Lexeme} {read : Arith} (primary : Reads .primary lexemes read)
      (negated : Bool) :
      Reads .factor lexemes read ∧ (negated = false → Reads .primary lexemes read) :=
    ⟨.unsigned (.base primary), fun _ => primary⟩
  induction arith with
  | literal digits => exact whole (reads_literal valid) _
  | field name => exact whole (reads_field valid) _
  | negate operand ih =>
    rw [Arith.code, Arith.asRead, Arith.isNegated]
    by_cases bare : operand.isLiteral = true
    · rw [if_pos bare, lexemes_minus]
      refine ⟨.negated (ih valid).1, ?_⟩
      intro closed
      rw [bare] at closed
      cases closed
    · rw [if_neg bare, lexemes_negated]
      exact whole (.group (.term (.factor (.negated (ih valid).1)))) _
  | binary op left right ihLeft ihRight =>
    obtain ⟨first, firstPrimary⟩ := ihLeft valid.1
    obtain ⟨second, -⟩ := ihRight valid.2
    rw [Arith.code, lexemes_binary]
    refine whole ?_ _
    apply Reads.group
    cases op with
    | add =>
      rw [Arith.asRead_binary rfl]
      exact .plus (.term (.factor first)) (.factor second)
    | subtract =>
      rw [Arith.asRead_binary rfl]
      exact .minus (.term (.factor first)) (.factor second)
    | multiply =>
      rw [Arith.asRead_binary rfl]
      exact .term (.times (.factor first) second)
    | power =>
      cases negated : left.isNegated with
      | false =>
        rw [Arith.asRead_binary (by simp [negated])]
        exact .term (.factor (.unsigned (.raised (firstPrimary negated) second)))
      | true =>
        -- The sign is read before the power, and so it is the last to be applied.
        obtain ⟨digits, rfl⟩ := Arith.eq_of_isNegated negated
        have number : Reads .primary (lexemes digits) (.literal digits) := reads_literal valid.1
        have bare : (Arith.negate (.literal digits)).code = "-" ++ digits := rfl
        rw [Arith.asRead, bare, lexemes_minus]
        exact .term (.factor (.negated (.unsigned (.raised number second))))

end Host

namespace Operators.Tree

/-- A name that is neither a literal nor the entity. -/
def isField (name : String) : Bool :=
  name != "this" && !(["true", "false", "null", "none"].contains name.toLower)

/-- The operands of arithmetic: whole numbers and fields. -/
def leaf? : Tree → Option Arith
  | number digits => if digits.toList.all Char.isDigit then some (.literal digits) else none
  | name spelled => if isField spelled then some (.field spelled) else none
  | _ => none

theorem nameCode_of_isField {name : String} (field : isField name = true) :
    nameCode name = "self." ++ name := by
  simp only [isField, Bool.and_eq_true, bne_iff_ne, Bool.not_eq_true', List.contains_eq_mem,
    decide_eq_false_iff_not, List.mem_cons, List.not_mem_nil, or_false, not_or] at field
  obtain ⟨notEntity, notTrue, notFalse, notNull, notNone⟩ := field
  unfold nameCode
  split
  · exact (notTrue ‹_›).elim
  · exact (notFalse ‹_›).elim
  · exact (notNull ‹_›).elim
  · exact (notNone ‹_›).elim
  · rw [if_neg notEntity]

theorem spellingBefore_of_ofBinary? {op : BinaryOp} {operation : Operation}
    (known : Operation.ofBinary? op = some operation) (right : String) :
    spellingBefore right op = operation.sign := by
  unfold Operation.ofBinary? at known
  split at known <;> cases known <;> rfl

/-- A tree has the code of arithmetic that can stand in code. -/
structure WrittenAs (tree : Tree) (arith : Arith) : Prop where
  code : tree.code = arith.code
  numeral : tree.isNumeral = arith.isLiteral
  valid : arith.Valid

theorem code_between {op : BinaryOp} {operation : Operation} {left right : Tree}
    {before behind : Arith} (known : Operation.ofBinary? op = some operation)
    (first : left.WrittenAs before) (second : right.WrittenAs behind) :
    "(" ++ left.code ++ " " ++ spellingBefore right.code op ++ " " ++ right.code ++ ")" =
      (Arith.binary operation before behind).code := by
  rw [spellingBefore_of_ofBinary? known, first.code, second.code, Arith.code]

/-- The code of a tree is that of the arithmetic it stands for. -/
theorem writtenAs_of_arith? {tree : Tree} {arith : Arith} (valid : tree.Valid)
    (means : tree.arith? leaf? = some arith) : tree.WrittenAs arith := by
  induction tree generalizing arith with
  | number digits =>
    simp only [arith?, leaf?] at means
    split at means
    · rename_i all
      cases means
      obtain ⟨whole, fraction, scale, spelled, digital, -⟩ := valid
      have nonempty : digits.toList ≠ [] := by simp [spelled, digital.1]
      exact ⟨rfl, rfl, nonempty, all⟩
    · cases means
  | name spelled =>
    simp only [arith?, leaf?] at means
    split at means
    · rename_i field
      cases means
      exact ⟨nameCode_of_isField field, rfl, valid⟩
    · cases means
  | group inside ih =>
    have inner := ih valid means
    exact ⟨inner.code, inner.numeral, inner.valid⟩
  | minus operand ih =>
    simp only [arith?, Option.map_eq_some_iff] at means
    obtain ⟨negated, known, rfl⟩ := means
    have inner := ih valid known
    refine ⟨?_, rfl, inner.valid⟩
    rw [code, Arith.code, inner.code, inner.numeral]
  | binary op left right ihLeft ihRight =>
    obtain ⟨operation, before, behind, known, meansLeft, meansRight, rfl⟩ :=
      Arith.binary?_eq_some.1 means
    have first := ihLeft valid.1 meansLeft
    have second := ihRight valid.2 meansRight
    exact ⟨code_between known first second, rfl, first.valid, second.valid⟩
  | applied op left right ihLeft ihRight =>
    obtain ⟨operation, before, behind, known, meansLeft, meansRight, rfl⟩ :=
      Arith.binary?_eq_some.1 means
    have first := ihLeft valid.2.1 meansLeft
    have second := ihRight valid.2.2 meansRight
    exact ⟨code_between known first second, rfl, first.valid, second.valid⟩
  | _ => cases means

end Operators.Tree

namespace Formula

open Operators

/-- The host reads the code of arithmetic in one way. It is what the formula means if and only if
no power in the formula raises a negated number. -/
theorem compile_arithmetic {formula : String} {tokens : List Token} {tree : Tree} {meant : Arith}
    {fragment : Fragment} (lexed : tokenize formula = .ok tokens)
    (derives : Derives true (.whole (.loop .disjunction) tree) tokens)
    (arithmetic : tree.arith? Tree.leaf? = some meant)
    (success : (compile formula).result = .ok fragment) :
    (∀ read, Host.ReadsText fragment.code read ↔ read = meant.asRead) ∧
      (Host.ReadsText fragment.code meant ↔ meant.raisesNegated = false) := by
  obtain ⟨-, rfl⟩ := (compile_of_derives lexed derives).1 success
  have valid : tree.Valid := derives.valid (tokenize_lexed lexed)
  have written : tree.WrittenAs meant := Tree.writtenAs_of_arith? valid arithmetic
  have reads : Host.ReadsText tree.code meant.asRead := by
    rw [written.code]
    exact .term (.factor (Host.reads_code written.valid).1)
  have only (read : Arith) : Host.ReadsText tree.code read ↔ read = meant.asRead := by
    constructor
    · intro other
      exact Host.Reads.unique other reads
    · rintro rfl
      exact reads
  refine ⟨only, ?_⟩
  calc Host.ReadsText tree.code meant ↔ meant = meant.asRead := only meant
    _ ↔ meant.asRead = meant := eq_comm
    _ ↔ meant.raisesNegated = false := meant.asRead_eq_iff

/-- The square of minus two is compiled to code that is read as minus the square of two. -/
theorem compile_arithmetic_square :
    (compile "(-2)^2").result = .ok (.plain "(-2 ** 2)") ∧
      ∃ tokens tree, tokenize "(-2)^2" = .ok tokens ∧
        Derives true (.whole (.loop .disjunction) tree) tokens ∧
        tree.arith? Tree.leaf? =
          some (.binary .power (.negate (.literal "2")) (.literal "2")) ∧
        Host.ReadsText "(-2 ** 2)" (.negate (.binary .power (.literal "2") (.literal "2"))) ∧
        ¬ Host.ReadsText "(-2 ** 2)" (.binary .power (.negate (.literal "2")) (.literal "2")) := by
  have lexed : tokenize "(-2)^2" = .ok
      ([⟨.openParen, 0, 1⟩, ⟨.minus, 1, 2⟩, ⟨.number "2", 2, 3⟩, ⟨.closeParen, 3, 4⟩] ++
        ⟨.caret, 4, 5⟩ :: [⟨.number "2", 5, 6⟩]) := by cbv
  have whole {tokens : List Token} {tree : Tree}
      (signed : Derives true (.whole .signed tree) tokens) :
      Derives true (.whole (.loop .disjunction) tree) tokens :=
    .single (.single (.positive (.alone (.single (.single signed)))))
  have base : Derives true (.whole .primary (.group (.minus (.number "2"))))
      [⟨.openParen, 0, 1⟩, ⟨.minus, 1, 2⟩, ⟨.number "2", 2, 3⟩, ⟨.closeParen, 3, 4⟩] :=
    @Derives.group _ _ _ [⟨.minus, 1, 2⟩, ⟨.number "2", 2, 3⟩] _ rfl rfl
      (whole (.minus rfl (.unsigned (.base (.atom rfl)))))
  have exponent : Derives true (.whole .signed (.number "2")) [⟨.number "2", 5, 6⟩] :=
    .unsigned (.base (.atom rfl))
  have derives := whole (.unsigned (@Derives.raised _ ⟨.caret, 4, 5⟩ _ _ _ _ base rfl exponent))
  have success := (compile_of_derives lexed derives).2 ⟨by decide, rfl⟩
  have read := compile_arithmetic lexed derives rfl success
  refine ⟨success, _, _, lexed, derives, rfl, (read.1 _).2 rfl, ?_⟩
  intro kept
  exact absurd (read.2.1 kept) (by decide)

end Formula

end Formulary
