set_option autoImplicit false

namespace Formulary.Text

/-- The number of bytes that the characters take in UTF-8. -/
def byteSize : List Char → Nat
  | [] => 0
  | c :: cs => c.utf8Size + byteSize cs

/-- What follows the first `count` bytes. A character that the cut falls into is dropped. -/
def dropBytes : Nat → List Char → List Char
  | 0, cs => cs
  | _ + 1, [] => []
  | count + 1, c :: cs => dropBytes (count + 1 - c.utf8Size) cs

/-- The first `count` bytes. A character that the cut falls into is kept. -/
def takeBytes : Nat → List Char → List Char
  | 0, _ => []
  | _ + 1, [] => []
  | count + 1, c :: cs => c :: takeBytes (count + 1 - c.utf8Size) cs

/-- The text between two byte positions. -/
def slice (source : List Char) (start stop : Nat) : String :=
  String.ofList (takeBytes (stop - start) (dropBytes start source))

@[simp] theorem byteSize_nil : byteSize [] = 0 := rfl

@[simp] theorem byteSize_cons (c : Char) (cs : List Char) :
    byteSize (c :: cs) = c.utf8Size + byteSize cs := rfl

@[simp] theorem byteSize_append (left right : List Char) :
    byteSize (left ++ right) = byteSize left + byteSize right := by
  induction left with
  | nil => simp
  | cons c cs ih => simp only [List.cons_append, byteSize_cons, ih, Nat.add_assoc]

private theorem utf8Size_eq_succ (c : Char) : ∃ n, c.utf8Size = n + 1 :=
  ⟨c.utf8Size - 1, by have := c.utf8Size_pos; omega⟩

@[simp] theorem dropBytes_byteSize_append (left right : List Char) :
    dropBytes (byteSize left) (left ++ right) = right := by
  induction left with
  | nil => simp [dropBytes]
  | cons c cs ih =>
    obtain ⟨n, size⟩ := utf8Size_eq_succ c
    have total : byteSize (c :: cs) = (n + byteSize cs) + 1 := by
      rw [byteSize_cons, size]; omega
    rw [total, List.cons_append, dropBytes, size,
      show n + byteSize cs + 1 - (n + 1) = byteSize cs by omega, ih]

@[simp] theorem takeBytes_byteSize_append (left right : List Char) :
    takeBytes (byteSize left) (left ++ right) = left := by
  induction left with
  | nil => simp [takeBytes]
  | cons c cs ih =>
    obtain ⟨n, size⟩ := utf8Size_eq_succ c
    have total : byteSize (c :: cs) = (n + byteSize cs) + 1 := by
      rw [byteSize_cons, size]; omega
    rw [total, List.cons_append, takeBytes, size,
      show n + byteSize cs + 1 - (n + 1) = byteSize cs by omega, ih]

/-- Between the positions where a part of the text starts and stops stands that part. -/
theorem slice_append (before part after : List Char) :
    slice (before ++ part ++ after) (byteSize before) (byteSize before + byteSize part) =
      String.ofList part := by
  rw [slice, List.append_assoc, dropBytes_byteSize_append, Nat.add_sub_cancel_left,
    takeBytes_byteSize_append]

end Formulary.Text
