set_option autoImplicit false

namespace Formulary

/-- A value and the text that follows it, shorter than `bound`. -/
structure Taken (α : Type) (bound : Nat) where
  value : α
  rest : List Char
  shorter : rest.length < bound

/-- A text is shorter than the same text with a character in front. -/
theorem length_lt_cons (c : Char) (cs : List Char) : cs.length < (c :: cs).length :=
  Nat.lt_succ_self _

theorem length_le_cons (c : Char) (cs : List Char) : cs.length ≤ (c :: cs).length :=
  Nat.le_succ _

namespace Taken

def map {α β : Type} {bound : Nat} (taken : Taken α bound) (f : α → β) : Taken β bound :=
  ⟨f taken.value, taken.rest, taken.shorter⟩

def widen {α : Type} {bound wider : Nat} (taken : Taken α bound) (le : bound ≤ wider) :
    Taken α wider :=
  ⟨taken.value, taken.rest, Nat.lt_of_lt_of_le taken.shorter le⟩

end Taken

end Formulary
