import Mathlib
import Formulary.Proofs.Lexed

set_option autoImplicit false

namespace Formulary

inductive Bracket where
  | round
  | square
  deriving DecidableEq, Repr

namespace Bracket

def ofOpening? : Char → Option Bracket
  | '(' => some round
  | '[' => some square
  | _ => none

def ofClosing? : Char → Option Bracket
  | ')' => some round
  | ']' => some square
  | _ => none

end Bracket

/-- The comma, the colon, and the marks of operators other than the sign of a number. -/
def separators : List Char :=
  [',', ':', '*', '/', '%', '<', '>', '=', '!', '&', '|', '^', '~', '@']

/-- A character that sets apart what stands on either side of it. -/
def separates (c : Char) : Bool := Text.isBlank c || separators.contains c

inductive Mode where
  | code
  /-- Inside a string literal that this quote closes. -/
  | literal (quote : Char)
  /-- Behind a backslash in such a literal. -/
  | escape (quote : Char)
  deriving DecidableEq, Repr

/-- A scan of code: the brackets that are open, the last one first, and where it stands. -/
structure Scan where
  opened : List Bracket
  mode : Mode
  deriving DecidableEq, Repr

namespace Scan

/-- Outside all brackets, before the first character. -/
def start : Scan := ⟨[], .code⟩

/-- One character of code. A bracket closes the last one that is open, which has to be of its
kind, and nothing that separates may stand outside brackets. -/
def stepCode (opened : List Bracket) (c : Char) : Option Scan :=
  if c = '"' ∨ c = '\'' then some ⟨opened, .literal c⟩
  else match Bracket.ofOpening? c, Bracket.ofClosing? c with
    | some bracket, _ => some ⟨bracket :: opened, .code⟩
    | none, some bracket =>
      if opened.head? = some bracket then some ⟨opened.tail, .code⟩ else none
    | none, none => if opened = [] ∧ separates c then none else some ⟨opened, .code⟩

def step (scan : Scan) (c : Char) : Option Scan :=
  match scan.mode with
  | .code => stepCode scan.opened c
  | .literal quote =>
    if c = quote then some ⟨scan.opened, .code⟩
    else if c = '\\' then some ⟨scan.opened, .escape quote⟩
    else some scan
  | .escape quote => some ⟨scan.opened, .literal quote⟩

def run (scan : Scan) (cs : List Char) : Option Scan := cs.foldlM step scan

end Scan

/-- Code that is not empty, whose brackets match, and that holds nothing that separates outside
its brackets and literals. -/
def Delimited (code : String) : Prop :=
  code ≠ "" ∧ Scan.start.run code.toList = some Scan.start

instance (code : String) : Decidable (Delimited code) := inferInstanceAs (Decidable (_ ∧ _))

/-- Wherever the text stands in other code, it leaves the brackets around it as they are. At each of
its characters the brackets open are its own and, below them, those around it; and a character of it
that separates stands in a literal or in a bracket of its own. -/
def Contained (code : String) : Prop :=
  ∀ outer : List Bracket,
    Scan.run ⟨outer, .code⟩ code.toList = some ⟨outer, .code⟩ ∧
    ∀ (front back : List Char) (c : Char), code.toList = front ++ c :: back →
      ∃ (own : List Bracket) (mode : Mode),
        Scan.run ⟨outer, .code⟩ front = some ⟨own ++ outer, mode⟩ ∧
          (mode = .code → separates c = true → own ≠ [])

namespace Scan

@[simp] theorem run_nil (scan : Scan) : scan.run [] = some scan := rfl

@[simp] theorem run_cons (scan : Scan) (c : Char) (cs : List Char) :
    scan.run (c :: cs) = (scan.step c).bind (·.run cs) := rfl

theorem run_append (scan : Scan) (first second : List Char) :
    scan.run (first ++ second) = (scan.run first).bind (·.run second) :=
  List.foldlM_append

/-- The characters that change what is open. -/
def marks : List Char := ['"', '\'', '(', '[', ')', ']']

theorem step_unmarked {opened : List Bracket} {c : Char} (unmarked : c ∉ marks) :
    step ⟨opened, .code⟩ c =
      if opened = [] ∧ separates c = true then none else some ⟨opened, .code⟩ := by
  simp only [marks, List.mem_cons, List.not_mem_nil, or_false, not_or] at unmarked
  have opening : Bracket.ofOpening? c = none := by
    unfold Bracket.ofOpening?
    split <;> simp_all
  have closing : Bracket.ofClosing? c = none := by
    unfold Bracket.ofClosing?
    split <;> simp_all
  simp only [step, stepCode, opening, closing]
  rw [if_neg (by simp [unmarked])]

theorem step_separates {c : Char} (separating : separates c = true) :
    step start c = none := by
  have none_marked : marks.all (!separates ·) = true := by decide
  rw [start, step_unmarked, if_pos ⟨rfl, separating⟩]
  intro marked
  simpa [separating] using List.all_eq_true.1 none_marked c marked

/-- What may stand among fewer brackets may stand among more. -/
theorem step_extend {opened after outer : List Bracket} {mode next : Mode} {c : Char}
    (success : step ⟨opened, mode⟩ c = some ⟨after, next⟩) :
    step ⟨opened ++ outer, mode⟩ c = some ⟨after ++ outer, next⟩ := by
  cases mode with
  | escape quote =>
    simp only [step, Option.some.injEq, mk.injEq] at success ⊢
    exact ⟨by rw [success.1], success.2⟩
  | literal quote =>
    simp only [step] at success ⊢
    by_cases closes : c = quote
    · rw [if_pos closes] at success ⊢
      cases success
      rfl
    · rw [if_neg closes] at success ⊢
      by_cases slash : c = '\\'
      · rw [if_pos slash] at success ⊢
        cases success
        rfl
      · rw [if_neg slash] at success ⊢
        cases success
        rfl
  | code =>
    simp only [step, stepCode] at success ⊢
    split at success
    · cases success
      simp [*]
    · rename_i unquoted
      rw [if_neg unquoted]
      split at success
      · cases success
        simp
      · split at success
        · rename_i matching
          obtain ⟨bracket, rest, rfl⟩ := List.head?_eq_some_iff.1 matching
          cases success
          simp
        · cases success
      · split at success
        · cases success
        · rename_i fits
          cases success
          rw [if_neg]
          intro outside
          exact fits ⟨(List.append_eq_nil_iff.1 outside.1).1, outside.2⟩

theorem run_extend {opened after outer : List Bracket} {mode next : Mode} {cs : List Char}
    (success : run ⟨opened, mode⟩ cs = some ⟨after, next⟩) :
    run ⟨opened ++ outer, mode⟩ cs = some ⟨after ++ outer, next⟩ := by
  induction cs generalizing opened mode with
  | nil =>
    cases success
    rfl
  | cons c cs ih =>
    obtain ⟨⟨between, middle⟩, first, rest⟩ := Option.bind_eq_some_iff.1 success
    rw [run_cons, step_extend first]
    exact ih rest

end Scan

/-- The scan goes through the text as code, with these brackets open before it and after it. -/
def Runs (before : List Bracket) (text : String) (after : List Bracket) : Prop :=
  Scan.run ⟨before, .code⟩ text.toList = some ⟨after, .code⟩

/-- Text that may stand between brackets and leaves them open. -/
def Inside (text : String) : Prop :=
  ∀ (bracket : Bracket) (outer : List Bracket), Runs (bracket :: outer) text (bracket :: outer)

section Runs

variable {before between after : List Bracket} {first second text left right : String}

theorem Runs.append (start : Runs before first between) (finish : Runs between second after) :
    Runs before (first ++ second) after := by
  rw [Runs, String.toList_append, Scan.run_append, start]
  exact finish

theorem Delimited.runs (code : Delimited text) (outer : List Bracket) : Runs outer text outer :=
  Scan.run_extend code.2

theorem Delimited.inside (code : Delimited text) : Inside text := fun _ _ => code.runs _

theorem Inside.append (start : Inside left) (finish : Inside right) : Inside (left ++ right) :=
  fun bracket outer => (start bracket outer).append (finish bracket outer)

theorem inside_empty : Inside "" := fun _ _ => rfl

theorem runs_open : Runs before "(" (.round :: before) := rfl

theorem runs_close : Runs (.round :: before) ")" before := rfl

theorem inside_blank : Inside " " := fun _ _ => rfl

/-- Code that ends in some text is not empty. -/
theorem Delimited.of_append (ends : second ≠ "") (through : Runs [] (first ++ second) []) :
    Delimited (first ++ second) :=
  ⟨by simp [ends], through⟩

/-- Delimited code is contained in whatever code it is put into. -/
theorem Delimited.contained (code : Delimited text) : Contained text := by
  intro outer
  refine ⟨code.runs outer, ?_⟩
  intro front back c split
  have whole := code.2
  rw [split, Scan.run_append] at whole
  obtain ⟨⟨own, mode⟩, reached, rest⟩ := Option.bind_eq_some_iff.1 whole
  refine ⟨own, mode, Scan.run_extend reached, ?_⟩
  rintro rfl separating rfl
  rw [Scan.run_cons, ← Scan.start, Scan.step_separates separating] at rest
  cases rest

end Runs

/-- A character of a name, a member or a number. -/
def isPlain (c : Char) : Bool := Lexeme.isWordPart c || c == '.' || c == '+' || c == '-'

/-- Text that is not empty and holds names, members and numbers only. -/
def Plain (text : String) : Prop := text ≠ "" ∧ text.toList.all isPlain = true

instance (text : String) : Decidable (Plain text) := inferInstanceAs (Decidable (_ ∧ _))

section Plain

theorem isPlain_of_isWordPart {c : Char} (part : Lexeme.isWordPart c = true) :
    isPlain c = true := by
  simp [isPlain, part]

theorem isPlain_of_isDigit {c : Char} (digit : c.isDigit = true) : isPlain c = true :=
  isPlain_of_isWordPart (by simp [Lexeme.isWordPart, Char.isAlphanum, digit])

theorem plain_of_isDigits {digits : List Char} (only : Text.IsDigits digits) :
    digits.all isPlain = true := by
  apply List.all_eq_true.2
  intro c member
  exact isPlain_of_isDigit (List.all_eq_true.1 only.2 c member)

theorem isBlank_of_isPlain {c : Char} (plain : isPlain c = true) : Text.isBlank c = false := by
  have bounds : 0x20 < c.toNat ∧ c.toNat < 0x80 := by
    simp only [isPlain, Lexeme.isWordPart, Bool.or_eq_true, beq_iff_eq] at plain
    rcases plain with (((alphanumeric | rfl) | rfl) | rfl) | rfl
    · simp only [Char.isAlphanum, Char.isAlpha, Char.isUpper, Char.isLower, Char.isDigit,
        Char.reduceVal, UInt32.le_iff_toNat_le, UInt32.reduceToNat, Char.toNat_val, ge_iff_le,
        Bool.or_eq_true, Bool.and_eq_true, Bool.decide_and, decide_eq_true_eq] at alphanumeric
      omega
    all_goals decide
  simp only [Text.isBlank, Bool.or_eq_false_iff, Bool.and_eq_false_imp, decide_eq_true_eq,
    decide_eq_false_iff_not, beq_eq_false_iff_ne]
  omega

theorem separates_of_isPlain {c : Char} (plain : isPlain c = true) : separates c = false := by
  have none_plain : separators.all (!isPlain ·) = true := by decide
  have absent : separators.contains c = false := by
    rw [List.contains_eq_mem, decide_eq_false_iff_not]
    intro member
    simpa [plain] using List.all_eq_true.1 none_plain c member
  rw [separates, isBlank_of_isPlain plain, absent]
  rfl

theorem Scan.step_plain {opened : List Bracket} {c : Char} (plain : isPlain c = true) :
    Scan.step ⟨opened, .code⟩ c = some ⟨opened, .code⟩ := by
  have none_marked : Scan.marks.all (!isPlain ·) = true := by decide
  rw [Scan.step_unmarked, if_neg (by simp [separates_of_isPlain plain])]
  intro marked
  simpa [plain] using List.all_eq_true.1 none_marked c marked

theorem Scan.run_plain {opened : List Bracket} {cs : List Char}
    (plain : ∀ c ∈ cs, isPlain c = true) : Scan.run ⟨opened, .code⟩ cs = some ⟨opened, .code⟩ := by
  induction cs with
  | nil => rfl
  | cons c cs ih =>
    rw [Scan.run_cons, Scan.step_plain (plain c (by simp))]
    exact ih fun c member => plain c (by simp [member])

theorem Plain.delimited {text : String} (plain : Plain text) : Delimited text :=
  ⟨plain.1, Scan.run_plain (List.all_eq_true.1 plain.2)⟩

theorem Plain.append {first second : String} (before : Plain first) (behind : Plain second) :
    Plain (first ++ second) := by
  refine ⟨by simp [before.1], ?_⟩
  rw [String.toList_append, List.all_append, before.2, behind.2]
  rfl

theorem plain_of_cons {text : String} {first : Char} {rest : List Char}
    (spelled : text.toList = first :: rest) (start : isPlain first = true)
    (others : ∀ c ∈ rest, isPlain c = true) : Plain text := by
  refine ⟨?_, ?_⟩
  · rintro rfl
    cases spelled
  · rw [spelled, List.all_cons, start, List.all_eq_true.2 others]
    rfl

theorem plain_of_isWord {name : String} (word : Text.IsWord name.toList) : Plain name := by
  obtain ⟨first, rest, spelled, start, parts⟩ := word
  apply plain_of_cons spelled
  · exact isPlain_of_isWordPart (Lexeme.isWordPart_of_isWordStart start)
  · intro c member
    exact isPlain_of_isWordPart (parts c member)

theorem plain_of_isNumeral {digits : String} (numeral : Text.IsNumeral digits.toList) :
    Plain digits := by
  obtain ⟨whole, fraction, scale, spelled, natural, point, scaled⟩ := numeral
  have fractional : fraction.all isPlain = true := by
    rcases point with rfl | ⟨others, rfl, only⟩
    · rfl
    · rw [List.all_cons, plain_of_isDigits only]
      rfl
  have exponent : scale.all isPlain = true := by
    rcases scaled with rfl | ⟨mark, sign, others, rfl, isMark, signed, only⟩
    · rfl
    · rw [List.all_cons, List.all_append, plain_of_isDigits only]
      rcases isMark with rfl | rfl <;> rcases signed with rfl | rfl | rfl <;> rfl
  refine ⟨?_, ?_⟩
  · rintro rfl
    have empty := List.append_eq_nil_iff.1 (spelled.symm.trans String.toList_empty)
    exact natural.1 empty.1
  · rw [spelled, List.all_append, List.all_append, plain_of_isDigits natural, fractional, exponent]
    rfl

theorem Scan.run_closeQuote {opened : List Bracket} {quote : Char} {cs body rest : List Char}
    (isQuote : quote ≠ '\\') (found : Lexeme.closeQuote quote cs = some (body, rest)) :
    Scan.run ⟨opened, .literal quote⟩ body = some ⟨opened, .code⟩ := by
  fun_induction Lexeme.closeQuote quote cs generalizing body rest with
  | case1 => cases found
  | case2 => cases found
  | case3 c cs ih =>
    obtain ⟨⟨inner, after⟩, inside, same⟩ := Option.map_eq_some_iff.1 found
    cases same
    have closes : ¬ '\\' = quote := fun same => isQuote same.symm
    simp only [Scan.run_cons, Scan.step, closes, ↓reduceIte, Option.bind_some]
    exact ih inside
  | case4 cs last escapes =>
    cases found
    simp [Scan.step]
  | case5 c cs last escapes other ih =>
    obtain ⟨⟨inner, after⟩, inside, same⟩ := Option.map_eq_some_iff.1 found
    cases same
    have plain : c ≠ '\\' := Lexeme.ne_slash last escapes
    simp only [Scan.run_cons, Scan.step, other, plain, ↓reduceIte, Option.bind_some]
    exact ih inside

theorem delimited_of_isQuoted {literal : String} (quoted : Text.IsQuoted literal.toList) :
    Delimited literal := by
  obtain ⟨quote, body, spelled, isQuote, closed⟩ := quoted
  refine ⟨?_, ?_⟩
  · rintro rfl
    cases spelled
  · have slash : quote ≠ '\\' := by
      rcases isQuote with rfl | rfl <;> decide
    rw [spelled, Scan.run_cons, Scan.step, Scan.start, Scan.stepCode, if_pos isQuote]
    exact Scan.run_closeQuote slash closed

end Plain

end Formulary
