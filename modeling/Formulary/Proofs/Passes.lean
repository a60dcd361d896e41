import Mathlib
import Formulary.Formula.Expr
import Formulary.Proofs.Sweep

set_option autoImplicit false

namespace Formulary

/-- Where text may be put: in a gap only, or also right behind a word, a number or a literal. -/
inductive Phase where
  | clear
  | loose
  deriving DecidableEq, Repr

def Phase.Holds : Phase → Sweep → Prop
  | clear, place => place = .gap
  | loose, place => place.closes = true

/-- A sweep goes through the text from any place of the first phase to one of the second, and hands
out these literals. -/
def Passes (before : Phase) (text : String) (found : Multiset String) (after : Phase) : Prop :=
  ∀ place, before.Holds place → ∃ next list,
    place.run text.toList = some (next, list) ∧ after.Holds next ∧ (list : Multiset String) = found

/-- Code that carries these literals, and that may stand between marks. -/
def Carries (text : String) (found : Multiset String) : Prop := Passes .clear text found .loose

/-- Code that may be absent, and then carries nothing. -/
def CarriesOption : Option String → Multiset String → Prop
  | none, found => found = 0
  | some text, found => Carries text found

section Passes

variable {before between after : Phase} {first second text : String}
  {found more : Multiset String}

theorem Passes.append (front : Passes before first found between)
    (back : Passes between second more after) :
    Passes before (first ++ second) (found + more) after := by
  intro place start
  obtain ⟨middle, here, swept, holds, rfl⟩ := front place start
  obtain ⟨final, others, onward, ends, rfl⟩ := back middle holds
  refine ⟨final, here ++ others, ?_, ends, by simp⟩
  rw [String.toList_append]
  exact Sweep.run_append.2 ⟨middle, here, others, swept, onward, rfl⟩

/-- Text without literals behind other text. -/
theorem Passes.append_text (front : Passes before first found between)
    (back : Passes between second 0 after) : Passes before (first ++ second) found after := by
  simpa using front.append back

/-- Text without literals in front of other text. -/
theorem Passes.text_append (front : Passes before first 0 between)
    (back : Passes between second found after) : Passes before (first ++ second) found after := by
  simpa using front.append back

theorem Passes.loosen (through : Passes before text found .clear) :
    Passes before text found .loose := by
  intro place start
  obtain ⟨next, list, swept, rfl, same⟩ := through place start
  exact ⟨.gap, list, swept, rfl, same⟩

theorem passes_empty : Passes before "" 0 before := fun place start =>
  ⟨place, [], rfl, start, rfl⟩

end Passes

namespace Phase

/-- The phase of a place where text may stop. -/
def ofPlace? (place : Sweep) : Option Phase :=
  if place = .gap then some clear else if place.closes then some loose else none

/-- The phase behind a text without literals, if it may stand here. -/
def through (before : Phase) (text : String) : Option Phase :=
  match text.toList with
  | [] => some before
  | c :: cs =>
    if before = loose ∧ Lexeme.isWordPart c then none
    else match Sweep.gap.run (c :: cs) with
      | some (place, []) => ofPlace? place
      | _ => none

end Phase

theorem Phase.holds_of_ofPlace? {place : Sweep} {phase : Phase}
    (known : Phase.ofPlace? place = some phase) : phase.Holds place := by
  unfold ofPlace? at known
  split at known
  · cases known
    assumption
  · split at known
    · cases known
      assumption
    · cases known

/-- Texts that are always the same are swept once. -/
theorem passes_of_through {before after : Phase} {text : String}
    (fits : before.through text = some after) : Passes before text 0 after := by
  intro place start
  unfold Phase.through at fits
  split at fits
  · rename_i empty
    cases fits
    exact ⟨place, [], by rw [empty]; rfl, start, rfl⟩
  · rename_i c cs spelled
    split at fits
    · cases fits
    · rename_i mark
      split at fits
      · rename_i next swept
        refine ⟨next, [], ?_, Phase.holds_of_ofPlace? fits, rfl⟩
        rw [spelled, ← swept]
        cases before with
        | clear =>
          obtain rfl : place = .gap := start
          rfl
        | loose =>
          have other : Lexeme.isWordPart c = false := by simpa using mark
          have same := Sweep.step_of_closes start other
          rw [Sweep.run, Sweep.run, same]
      · cases fits

theorem carries_of_through {text : String} (fits : (Phase.clear.through text).isSome = true) :
    Carries text 0 := by
  obtain ⟨phase, known⟩ := Option.isSome_iff_exists.1 fits
  cases phase with
  | clear => exact (passes_of_through known).loosen
  | loose => exact passes_of_through known

section Nodes

variable {left right condition yes no value var collection elements parameter key : String}
  {target index count function : String} {predicate projection : Option String}
  {a b c d : Multiset String}

theorem passes_open : Passes .clear "(" 0 .clear := passes_of_through (by decide)

theorem passes_close : Passes .loose ")" 0 .loose := (passes_of_through (by decide)).loosen

theorem passes_comma : Passes .loose ", " 0 .clear := passes_of_through (by decide)

theorem passes_blank : Passes .loose " " 0 .clear := passes_of_through (by decide)

theorem carries_commas {texts : List String} {parts : List (Multiset String)}
    (each : List.Forall₂ Carries texts parts) : Carries (", ".intercalate texts) parts.sum := by
  induction each with
  | nil => exact carries_of_through (by decide)
  | cons first others ih =>
    cases others with
    | nil => simpa using first
    | cons second others =>
      rw [String.intercalate_cons_cons, List.sum_cons]
      exact (first.append_text passes_comma).append ih

theorem BinaryOp.carries_symbol (op : BinaryOp) (right : String) :
    Carries (op.symbol right) 0 := by
  cases op with
  | equal =>
    rw [BinaryOp.symbol]
    split <;> exact carries_of_through (by decide)
  | notEqual =>
    rw [BinaryOp.symbol]
    split <;> exact carries_of_through (by decide)
  | _ =>
    rw [BinaryOp.symbol]
    exact carries_of_through (by decide)

theorem BinaryOp.carries_code (op : BinaryOp) (first : Carries left a) (second : Carries right b) :
    Carries (op.code left right) (a + b) :=
  (((((passes_open.text_append first).append_text passes_blank).append_text
    (op.carries_symbol right)).append_text passes_blank).append second).append_text passes_close

theorem carries_negationCode (operand : Carries value a) : Carries (negationCode value) a := by
  have sign : Passes .clear "-" 0 .clear := passes_of_through (by decide)
  have opened : Passes .clear "(-" 0 .clear := passes_of_through (by decide)
  rw [negationCode]
  split
  · exact sign.text_append operand
  · exact (opened.text_append operand).append_text passes_close

theorem carries_conditionalCode (test : Carries condition a) (first : Carries yes b)
    (second : Carries no c) : Carries (conditionalCode condition yes no) (a + b + c) := by
  have ifWord : Passes .loose " if " 0 .clear := passes_of_through (by decide)
  have elseWord : Passes .loose " else " 0 .clear := passes_of_through (by decide)
  have code := ((((passes_open.text_append first).append_text ifWord).append test).append_text
    elseWord).append second
  rw [add_comm a b]
  exact code.append_text passes_close

theorem carries_generator (each : Carries value a) (bound : Carries var 0)
    (source : Carries collection b) (test : CarriesOption predicate c) :
    Carries (generator value var collection predicate) (a + b + c) := by
  have forWord : Passes .loose " for " 0 .clear := passes_of_through (by decide)
  have inWord : Passes .loose " in " 0 .clear := passes_of_through (by decide)
  have ifWord : Passes .loose " if " 0 .clear := passes_of_through (by decide)
  have front := (((each.append_text forWord).append_text bound).append_text inWord).append source
  cases predicate with
  | none =>
    obtain rfl : c = 0 := test
    exact front.append passes_empty
  | some text => exact front.append (ifWord.text_append test)

theorem carries_filtered (bound : Carries var 0) (source : Carries collection a)
    (test : CarriesOption predicate b) : Carries (filtered var collection predicate) (a + b) := by
  cases predicate with
  | none =>
    obtain rfl : b = 0 := test
    rw [add_zero]
    exact source
  | some text =>
    have body := carries_generator bound bound source test
    rw [zero_add] at body
    exact (passes_open.text_append body).append_text passes_close

theorem CarriesOption.getD (given : CarriesOption projection a) (otherwise : Carries value 0) :
    Carries (projection.getD value) a := by
  cases projection with
  | none =>
    obtain rfl : a = 0 := given
    exact otherwise
  | some text => exact given

section Reducers

variable (bound : Carries var 0) (source : Carries collection a) (test : CarriesOption predicate b)
  (each : CarriesOption projection c)

include bound source test each

theorem Reducer.carries_applyCode (callee : Passes .clear (function ++ "(") 0 .clear) :
    Carries (applyCode function var collection predicate projection) (a + b + c) := by
  unfold applyCode
  split
  · obtain rfl : b = 0 := test
    obtain rfl : c = 0 := each
    rw [add_zero, add_zero]
    exact (callee.text_append source).append_text passes_close
  · have body := carries_generator (each.getD bound) bound source test
    rw [add_comm (a + b) c, ← add_assoc]
    exact (callee.text_append body).append_text passes_close

theorem Reducer.carries_countCode :
    Carries (countCode var collection predicate projection) (a + b + c) := by
  have one : Carries "1" 0 := carries_of_through (by decide)
  have present : Passes .loose " is not None" 0 .loose := passes_of_through (by decide)
  have andWord : Passes .loose " and " 0 .clear := passes_of_through (by decide)
  have opened : Passes .clear "sum(" 0 .clear := passes_of_through (by decide)
  have counted {text : String} {d : Multiset String} (passes : Carries text d) :
      Carries ("sum(" ++ generator "1" var collection (some text) ++ ")") (a + d) := by
    have body := @carries_generator _ _ _ (some text) _ _ _ one bound source passes
    rw [zero_add] at body
    exact (opened.text_append body).append_text passes_close
  unfold countCode
  split
  · obtain rfl : b = 0 := test
    obtain rfl : c = 0 := each
    have opened : Passes .clear "len(" 0 .clear := passes_of_through (by decide)
    rw [add_zero, add_zero]
    exact (opened.text_append source).append_text passes_close
  · obtain rfl : c = 0 := each
    rw [add_zero]
    exact counted test
  · obtain rfl : b = 0 := test
    rw [add_zero]
    exact counted (Passes.append_text each present)
  · rw [add_assoc]
    exact counted (((Passes.append_text test andWord).append each).append_text present)

theorem Reducer.carries_existsCode :
    Carries (existsCode var collection predicate projection) (a + b + c) := by
  unfold existsCode
  split
  · obtain rfl : b = 0 := test
    obtain rfl : c = 0 := each
    have opened : Passes .clear "(len(" 0 .clear := passes_of_through (by decide)
    have closed : Passes .loose ") > 0)" 0 .clear := passes_of_through (by decide)
    rw [add_zero, add_zero]
    exact ((opened.text_append source).append_text closed).loosen
  · have opened : Passes .clear "any(" 0 .clear := passes_of_through (by decide)
    have always : Carries "True" 0 := carries_of_through (by decide)
    have body := carries_generator (each.getD always) bound source test
    rw [add_comm (a + b) c, ← add_assoc]
    exact (opened.text_append body).append_text passes_close

theorem Reducer.carries_code (reducer : Reducer) :
    Carries (reducer.code var collection predicate projection) (a + b + c) := by
  cases reducer with
  | count => exact carries_countCode bound source test each
  | «exists» => exact carries_existsCode bound source test each
  | _ => exact carries_applyCode bound source test each (passes_of_through (by decide))

end Reducers

theorem Extreme.carries_code (which : Extreme) (source : Carries elements a)
    (bound : Carries parameter 0) (body : Carries key b) :
    Carries (which.code elements parameter key) (a + b) := by
  have opened : Passes .clear (which.function ++ "(") 0 .clear := by
    cases which <;> exact passes_of_through (by decide)
  have lambda : Passes .loose ", key=lambda " 0 .clear := passes_of_through (by decide)
  have colon : Passes .loose ": " 0 .clear := passes_of_through (by decide)
  exact (((((opened.text_append source).append_text lambda).append_text bound).append_text
    colon).append body).append_text passes_close

theorem carries_topCode (number : Carries count a) (source : Carries elements b)
    (bound : Carries parameter 0) (body : Carries key c) :
    Carries (topCode count elements parameter key) (a + (b + c)) := by
  have opened : Passes .clear "sorted(" 0 .clear := passes_of_through (by decide)
  have lambda : Passes .loose ", key=lambda " 0 .clear := passes_of_through (by decide)
  have colon : Passes .loose ": " 0 .clear := passes_of_through (by decide)
  have sliced : Passes .loose ", reverse=True)[:" 0 .clear := passes_of_through (by decide)
  have closed : Passes .loose "]" 0 .clear := passes_of_through (by decide)
  have code := ((((((opened.text_append source).append_text lambda).append_text bound).append_text
    colon).append body).append_text sliced).append number
  rw [add_comm a]
  exact (code.append_text closed).loosen

theorem passes_repeated {phase : Phase} {text : String} (times : Nat)
    (part : Passes phase text 0 phase) : Passes phase (repeated times text) 0 phase := by
  induction times with
  | zero => exact passes_empty
  | succ times ih =>
    rw [repeated_succ]
    exact part.text_append ih

theorem carries_indexAlong (axis : Int) (array : Carries target a) (place : Carries index b) :
    Carries (indexAlong target axis index) (a + b) := by
  have opened : Passes .loose "[" 0 .clear := passes_of_through (by decide)
  have ellipsis : Passes .loose "[..., " 0 .clear := passes_of_through (by decide)
  have before : Passes .clear (repeated axis.natAbs ":, ") 0 .clear :=
    passes_repeated _ (passes_of_through (by decide))
  have behind : Passes .loose (repeated (axis.natAbs - 1) ", :") 0 .loose :=
    passes_repeated _ (passes_of_through (by decide)).loosen
  have closed : Passes .loose "]" 0 .loose := (passes_of_through (by decide)).loosen
  rw [indexAlong]
  split
  · exact (((array.append_text opened).append_text before).append place).append_text closed
  · exact (((array.append_text ellipsis).append place).append_text behind).append_text closed

end Nodes

end Formulary
