set_option autoImplicit false

namespace Formulary

/-- A finite set of names, kept as a list in strictly ascending order. The order is that of code
points, so it is also the order of the UTF-8 bytes. -/
structure NameSet where
  toList : List String
  sorted : toList.Pairwise (· < ·)
  deriving DecidableEq

namespace NameSet

/-- Puts a name at its place in an ascending list, unless it is there already. -/
def insertSorted (name : String) : List String → List String
  | [] => [name]
  | head :: rest =>
    if name = head then head :: rest
    else if name < head then name :: head :: rest
    else head :: insertSorted name rest

theorem mem_insertSorted {name other : String} {names : List String} :
    other ∈ insertSorted name names ↔ other = name ∨ other ∈ names := by
  induction names with
  | nil => simp [insertSorted]
  | cons head rest ih =>
    rw [insertSorted]
    split
    · rename_i same
      simp [same]
    · split
      · simp
      · simp [ih, or_left_comm]

private theorem lt_of_ne_of_not_lt {a b : String} (differ : a ≠ b) (above : ¬ a < b) : b < a := by
  by_cases below : b < a
  · exact below
  · exact absurd (String.le_antisymm (String.not_lt.1 below) (String.not_lt.1 above)) differ

theorem insertSorted_pairwise (name : String) {names : List String}
    (sorted : names.Pairwise (· < ·)) : (insertSorted name names).Pairwise (· < ·) := by
  induction names with
  | nil => simp [insertSorted]
  | cons head rest ih =>
    obtain ⟨least, tail⟩ := List.pairwise_cons.1 sorted
    rw [insertSorted]
    split
    · exact sorted
    · rename_i differ
      split
      · rename_i before
        refine List.pairwise_cons.2 ⟨fun other member => ?_, sorted⟩
        rcases List.mem_cons.1 member with rfl | member
        · exact before
        · exact String.lt_trans before (least other member)
      · rename_i above
        refine List.pairwise_cons.2 ⟨fun other member => ?_, ih tail⟩
        rcases mem_insertSorted.1 member with rfl | member
        · exact lt_of_ne_of_not_lt differ above
        · exact least other member

def empty : NameSet := ⟨[], .nil⟩

def insert (names : NameSet) (name : String) : NameSet :=
  ⟨insertSorted name names.toList, insertSorted_pairwise name names.sorted⟩

def union (left right : NameSet) : NameSet := right.toList.foldl insert left

def ofList (names : List String) : NameSet := names.foldl insert empty

def isEmpty (names : NameSet) : Bool := names.toList.isEmpty

instance : Membership String NameSet := ⟨fun names name => name ∈ names.toList⟩

theorem mem_def {name : String} {names : NameSet} : name ∈ names ↔ name ∈ names.toList := Iff.rfl

@[simp] theorem not_mem_empty (name : String) : ¬ name ∈ empty := by simp [mem_def, empty]

@[simp] theorem mem_insert {name other : String} {names : NameSet} :
    other ∈ names.insert name ↔ other = name ∨ other ∈ names := mem_insertSorted

private theorem mem_foldl_insert {name : String} (added : List String) (names : NameSet) :
    name ∈ added.foldl insert names ↔ name ∈ names ∨ name ∈ added := by
  induction added generalizing names with
  | nil => simp
  | cons head rest ih => simp only [List.foldl_cons, ih, mem_insert, List.mem_cons]; grind

@[simp] theorem mem_union {name : String} {left right : NameSet} :
    name ∈ left.union right ↔ name ∈ left ∨ name ∈ right :=
  mem_foldl_insert right.toList left

end NameSet

end Formulary
