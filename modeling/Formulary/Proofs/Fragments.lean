import Mathlib
import Formulary.Formula.Expr

set_option autoImplicit false

namespace Formulary

namespace NameSet

/-- A set is known by its members. -/
theorem ext_mem {left right : NameSet} (same : ∀ name, name ∈ left ↔ name ∈ right) :
    left = right := by
  have distinct (names : NameSet) : names.toList.Nodup := by
    refine names.sorted.imp ?_
    rintro a _ less rfl
    exact String.lt_irrefl a less
  have perm : left.toList.Perm right.toList :=
    (List.perm_ext_iff_of_nodup (distinct left) (distinct right)).2 same
  have equal : left.toList = right.toList := by
    refine @List.Perm.eq_of_pairwise _ (· < ·) _ _ ?_ left.sorted right.sorted perm
    intro a b _ _ less greater
    exact absurd (String.lt_trans less greater) (String.lt_irrefl a)
  cases left
  cases right
  congr

end NameSet

namespace Needs

theorem ext_mem {left right : Needs} (blocks : ∀ name, name ∈ left.blocks ↔ name ∈ right.blocks)
    (statistics : left.statistics = true ↔ right.statistics = true) : left = right := by
  have sets := NameSet.ext_mem blocks
  have flags := Bool.eq_iff_iff.2 statistics
  cases left
  cases right
  congr

/-- Something that is needed together if and only if one part needs it. -/
structure Additive (wanted : Needs → Prop) : Prop where
  none : ¬ wanted .none
  join : ∀ left right, wanted (left.join right) ↔ wanted left ∨ wanted right

theorem additive_block (name : String) : Additive fun needs => name ∈ needs.blocks where
  none := NameSet.not_mem_empty name
  join _ _ := NameSet.mem_union

theorem additive_statistics : Additive fun needs => needs.statistics = true where
  none := Bool.false_ne_true
  join _ _ := Bool.or_eq_true _ _ ▸ Iff.rfl

theorem eq_of_additive {left right : Needs}
    (same : ∀ wanted : Needs → Prop, Additive wanted → (wanted left ↔ wanted right)) :
    left = right :=
  ext_mem (fun name => same _ (additive_block name)) (same _ additive_statistics)

section Additive

variable {wanted : Needs → Prop} (additive : Additive wanted)
include additive

private theorem foldl_join_iff (parts : List Needs) (first : Needs) :
    wanted (parts.foldl join first) ↔ wanted first ∨ ∃ part ∈ parts, wanted part := by
  induction parts generalizing first with
  | nil => simp
  | cons part parts ih =>
    rw [List.foldl_cons, ih, additive.join, or_assoc, List.exists_mem_cons_iff]

theorem joinAll_iff (parts : List Needs) :
    wanted (joinAll parts) ↔ ∃ part ∈ parts, wanted part := by
  rw [joinAll, foldl_join_iff additive, or_iff_right additive.none]

end Additive

theorem join_none (needs : Needs) : needs.join none = needs := by
  rw [join, none, Bool.or_false]
  rfl

end Needs

namespace Fragment

/-- A fragment made of parts has the code that it is given and the needs of the parts. -/
theorem combine_eq (code : String) (parts : List Fragment) :
    combine code parts = ⟨code, .joinAll (parts.map needs)⟩ := by
  have run (first : Fragment) :
      parts.foldl absorb first = ⟨first.code, (parts.map needs).foldl .join first.needs⟩ := by
    induction parts generalizing first with
    | nil => rfl
    | cons part parts ih => exact ih (first.absorb part)
  exact run (plain code)

theorem needs_withBlock (fragment : Fragment) (name : String) :
    (fragment.withBlock name).needs = fragment.needs.join ⟨NameSet.empty.insert name, false⟩ := by
  rw [Needs.join, Bool.or_false]
  rfl

theorem needs_withStatistics (fragment : Fragment) :
    fragment.withStatistics.needs = fragment.needs.join ⟨.empty, true⟩ := by
  rw [Needs.join, Bool.or_true]
  rfl

end Fragment

namespace Expr

/-- The expressions whose codes the code of an expression is made of. -/
def parts : Expr → List Expr
  | number _ => []
  | text _ => []
  | boolean _ => []
  | null => []
  | reference _ => []
  | not operand => [operand]
  | negate operand => [operand]
  | binary _ left right => [left, right]
  | conditional condition yes no => [condition, yes, no]
  | tuple items => items
  | list items => items
  | call _ arguments => arguments
  | overMember _ collection _ _ => [collection]
  | alongAxis _ target axis => target :: axis.toList
  | slice _ target axis index => [target, axis, index]
  | reduce _ _ collection predicate projection =>
    collection :: predicate.toList ++ projection.toList
  | extreme _ _ collection predicate _ key => collection :: predicate.toList ++ [key]
  | top count _ collection predicate _ key => count :: collection :: predicate.toList ++ [key]

/-- What an expression needs besides its parts. -/
def ownNeeds : Expr → Needs
  | call signature _ => callNeeds signature
  | reduce reducer _ _ _ _ => ⟨.empty, reducer.needsStatistics⟩
  | _ => .none

/-- Adds what an expression needs besides its parts to a fragment. -/
def mark (expr : Expr) (fragment : Fragment) : Fragment :=
  match expr with
  | call signature _ =>
    if signature.isBuildingBlock then fragment.withBlock signature.name else fragment
  | reduce reducer _ _ _ _ => if reducer.needsStatistics then fragment.withStatistics else fragment
  | _ => fragment

theorem mark_eq (expr : Expr) (fragment : Fragment) :
    expr.mark fragment = ⟨fragment.code, fragment.needs.join expr.ownNeeds⟩ := by
  have unmarked : fragment = ⟨fragment.code, fragment.needs.join .none⟩ := by
    rw [Needs.join_none]
  cases expr with
  | call signature arguments =>
    rw [mark, ownNeeds, callNeeds]
    split
    · rw [← Fragment.needs_withBlock]
      rfl
    · exact unmarked
  | reduce reducer var collection predicate projection =>
    rw [mark, ownNeeds]
    cases reducer.needsStatistics with
    | true =>
      rw [← Fragment.needs_withStatistics]
      rfl
    | false => exact unmarked
  | _ => exact unmarked

section Additive

variable {wanted : Needs → Prop} (additive : Needs.Additive wanted)
include additive

theorem needsAll_iff (items : List Expr) :
    wanted (needsAll items) ↔ ∃ item ∈ items, wanted item.needs := by
  induction items with
  | nil => simp [needsAll, additive.none]
  | cons item items ih => rw [needsAll, additive.join, ih, List.exists_mem_cons_iff]

theorem needsOption_iff (part : Option Expr) :
    wanted (needsOption part) ↔ ∃ expr ∈ part.toList, wanted expr.needs := by
  cases part with
  | none => simp [needsOption, additive.none]
  | some expr => simp [needsOption]

/-- An expression needs what one of its parts needs, and what it needs by itself. -/
theorem needs_iff (expr : Expr) :
    wanted expr.needs ↔ (∃ part ∈ expr.parts, wanted part.needs) ∨ wanted expr.ownNeeds := by
  cases expr with
  | tuple items | list items | call signature items =>
    simp [needs, parts, ownNeeds, additive.join, additive.none, needsAll_iff additive]
  | _ =>
    simp [needs, parts, ownNeeds, additive.join, additive.none, needsOption_iff additive,
      or_and_right, exists_or, or_assoc, or_comm, or_left_comm]

end Additive

theorem needs_eq (expr : Expr) : expr.needs = .joinAll (expr.ownNeeds :: expr.parts.map needs) := by
  apply Needs.eq_of_additive
  intro wanted additive
  rw [needs_iff additive, Needs.joinAll_iff additive, List.exists_mem_cons_iff, or_comm]
  simp

/-- The fragment of an expression is made of the fragments of its parts, and marked if it is a call
of a building block or a reduction by the statistics module. -/
theorem fragment_eq (expr : Expr) :
    expr.fragment = expr.mark (.combine expr.render (expr.parts.map fragment)) := by
  rw [mark_eq, Fragment.combine_eq, fragment]
  congr 1
  apply Needs.eq_of_additive
  intro wanted additive
  rw [needs_iff additive, additive.join, Needs.joinAll_iff additive]
  simp [fragment]

end Expr

end Formulary
