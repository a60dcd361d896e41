import Mathlib
import Formulary.Proofs.Slicing

set_option autoImplicit false

namespace Formulary

namespace Text

/-- A numeral for the place of an argument: decimal digits, maybe behind a plus sign, for a number
that a machine word holds. -/
def IsIndex (key : String) (index : Nat) : Prop :=
  ∃ digits, (key.toList = digits ∨ key.toList = '+' :: digits) ∧ IsDigits digits ∧
    index = Nat.ofDigits 10 (digits.map fun c => c.toNat - '0'.toNat).reverse ∧ index < 2 ^ 64

theorem natural?_eq_some_iff {cs : List Char} {number : Nat} :
    natural? cs = some number ↔ IsDigits cs ∧
      number = Nat.ofDigits 10 (cs.map fun c => c.toNat - '0'.toNat).reverse := by
  rw [natural?, IsDigits, Option.ite_none_right_eq_some, Option.some.injEq, decimalValue_eq]
  exact and_congr_right fun _ => eq_comm

theorem boundedNatural?_eq_some_iff {key : String} {index : Nat} :
    boundedNatural? maxWord key.toList = some index ↔ IsIndex key index := by
  have limit : index ≤ maxWord ↔ index < 2 ^ 64 := Nat.le_sub_one_iff_lt (by decide)
  unfold boundedNatural? IsIndex
  rw [Option.filter_eq_some_iff, natural?_eq_some_iff, decide_eq_true_eq, limit, and_assoc]
  split
  · rename_i rest signed
    -- No digit is a plus sign, so the sign is not part of the number.
    have unsigned : ¬IsDigits ('+' :: rest) := fun digits => by simpa using digits.2
    constructor
    · exact fun number => ⟨rest, .inr signed, number⟩
    · rintro ⟨digits, same | same, number⟩
      · exact absurd (signed ▸ same ▸ number.1) unsigned
      · cases signed.symm.trans same
        exact number
  · rename_i unsigned
    constructor
    · exact fun number => ⟨key.toList, .inl rfl, number⟩
    · rintro ⟨digits, same | same, number⟩
      · exact same ▸ number
      · exact absurd same (unsigned digits)

/-- The sign of all arguments is no number. -/
theorem not_isIndex_star (index : Nat) : ¬IsIndex "*" index := by
  intro number
  cases boundedNatural?_eq_some_iff.2 number

end Text

namespace Slot

variable {key : String}

theorem ofKey_of_isIndex {index : Nat} (number : Text.IsIndex key index) :
    ofKey key = .argument index := by
  have other : key ≠ "*" := fun star => Text.not_isIndex_star index (star ▸ number)
  rw [ofKey, if_neg other, Text.boundedNatural?_eq_some_iff.2 number]

theorem ofKey_of_word (other : key ≠ "*") (word : ∀ index, ¬Text.IsIndex key index) :
    ofKey key = .named key := by
  have noNumber : Text.boundedNatural? Text.maxWord key.toList = none := by
    rw [Option.eq_none_iff_forall_ne_some]
    exact fun index number => word index (Text.boundedNatural?_eq_some_iff.1 number)
  rw [ofKey, if_neg other, noNumber]

end Slot

namespace Piece

variable {arguments : List String} {named : List (String × String)}

/-- A piece that ends where it is written to end. -/
def IsPlain : Piece → Prop
  | literal text => '\x7b' ∉ text.toList
  | hole key => '\x7d' ∉ key.toList

instance : DecidablePred IsPlain
  | literal text => inferInstanceAs (Decidable ('\x7b' ∉ text.toList))
  | hole key => inferInstanceAs (Decidable ('\x7d' ∉ key.toList))

/-- The text that a piece gives. -/
inductive Gives (arguments : List String) (named : List (String × String)) :
    Piece → String → Prop where
  | literal (text : String) : Gives arguments named (.literal text) text
  | all : Gives arguments named (.hole "*") (", ".intercalate arguments)
  | argument {key text : String} {index : Nat} (number : Text.IsIndex key index)
      (found : arguments[index]? = some text) : Gives arguments named (.hole key) text
  | missing {key : String} {index : Nat} (number : Text.IsIndex key index)
      (beyond : arguments.length ≤ index) : Gives arguments named (.hole key) ""
  | named {key text : String} {before after : List (String × String)} (other : key ≠ "*")
      (word : ∀ index, ¬Text.IsIndex key index) (entries : named = before ++ (key, text) :: after)
      (first : ∀ entry ∈ before, entry.1 ≠ key) : Gives arguments named (.hole key) text
  | unknown {key : String} (other : key ≠ "*") (word : ∀ index, ¬Text.IsIndex key index)
      (absent : ∀ entry ∈ named, entry.1 ≠ key) : Gives arguments named (.hole key) ""

/-- What a piece is filled with is a text that it gives. -/
theorem gives_fill (piece : Piece) :
    Gives arguments named piece (piece.fill arguments named) := by
  cases piece with
  | literal text => exact .literal text
  | hole key =>
    rw [fill]
    by_cases star : key = "*"
    · subst star
      exact .all
    by_cases number : ∃ index, Text.IsIndex key index
    · obtain ⟨index, number⟩ := number
      rw [Slot.ofKey_of_isIndex number, Slot.fill]
      cases found : arguments[index]? with
      | none => exact .missing number (List.getElem?_eq_none_iff.1 found)
      | some text => exact .argument number found
    · have word := not_exists.1 number
      rw [Slot.ofKey_of_word star word, Slot.fill]
      cases found : named.lookup key with
      | none =>
        refine .unknown star word fun entry member same => ?_
        simpa [same] using List.lookup_eq_none_iff.1 found entry member
      | some text =>
        obtain ⟨before, after, entries, first⟩ := List.lookup_eq_some_iff.1 found
        refine .named star word entries fun entry member same => ?_
        simpa [same] using first entry member

/-- A piece gives no other text. -/
theorem Gives.fill_eq {piece : Piece} {text : String} (gives : Gives arguments named piece text) :
    piece.fill arguments named = text := by
  cases gives with
  | literal => rfl
  | all => rfl
  | argument number found =>
    rw [fill, Slot.ofKey_of_isIndex number, Slot.fill, found, Option.getD_some]
  | missing number beyond =>
    rw [fill, Slot.ofKey_of_isIndex number, Slot.fill, List.getElem?_eq_none beyond,
      Option.getD_none]
  | @named key text before after other word entries first =>
    have found : named.lookup key = some text :=
      List.lookup_eq_some_iff.2
        ⟨before, after, entries, fun entry member => bne_iff_ne.2 (first entry member).symm⟩
    rw [fill, Slot.ofKey_of_word other word, Slot.fill, found, Option.getD_some]
  | @unknown key other word absent =>
    have found : named.lookup key = none :=
      List.lookup_eq_none_iff.2 fun entry member => bne_iff_ne.2 (absent entry member).symm
    rw [fill, Slot.ofKey_of_word other word, Slot.fill, found, Option.getD_none]

theorem gives_iff {piece : Piece} {text : String} :
    Gives arguments named piece text ↔ piece.fill arguments named = text :=
  ⟨Gives.fill_eq, fun same => same ▸ gives_fill piece⟩

end Piece

namespace Template

section Scan

variable {text key rest : List Char} {mark : Char}

theorem differs_of_not_mem (absent : mark ∉ text) : ∀ c ∈ text, decide (c ≠ mark) = true :=
  fun _ member => decide_eq_true (ne_of_mem_of_not_mem member absent)

theorem takeWhile_upTo (absent : mark ∉ text) :
    (text ++ mark :: rest).takeWhile (· ≠ mark) = text := by
  rw [List.takeWhile_append_of_pos (differs_of_not_mem absent)]
  simp

theorem dropWhile_upTo (absent : mark ∉ text) :
    (text ++ mark :: rest).dropWhile (· ≠ mark) = mark :: rest := by
  rw [List.dropWhile_append_of_pos (differs_of_not_mem absent)]
  simp

theorem ofChars_literal (noOpening : '\x7b' ∉ text) :
    ofChars text = [.literal (String.ofList text)] := by
  have plain := differs_of_not_mem noOpening
  unfold ofChars
  split
  · rw [List.takeWhile_eq_self_iff.2 plain]
  · rename_i found
    rw [List.dropWhile_eq_nil_iff.2 plain] at found
    cases found

theorem ofChars_unclosed (noOpening : '\x7b' ∉ text) (noClosing : '\x7d' ∉ rest) :
    ofChars (text ++ '\x7b' :: rest) =
      [.literal (String.ofList text), .literal (String.ofList ('\x7b' :: rest))] := by
  unfold ofChars
  split
  · rename_i found
    cases (dropWhile_upTo noOpening).symm.trans found
  · rename_i brace after found
    cases (dropWhile_upTo noOpening).symm.trans found
    split
    · rw [takeWhile_upTo noOpening]
    · rename_i found
      rw [List.dropWhile_eq_nil_iff.2 (differs_of_not_mem noClosing)] at found
      cases found

theorem ofChars_hole (noOpening : '\x7b' ∉ text) (noClosing : '\x7d' ∉ key) :
    ofChars (text ++ '\x7b' :: (key ++ '\x7d' :: rest)) =
      .literal (String.ofList text) :: .hole (String.ofList key) :: ofChars rest := by
  rw [ofChars]
  split
  · rename_i found
    cases (dropWhile_upTo noOpening).symm.trans found
  · rename_i brace after found
    cases (dropWhile_upTo noOpening).symm.trans found
    split
    · rename_i found
      cases (dropWhile_upTo noClosing).symm.trans found
    · rename_i brace behind found
      cases (dropWhile_upTo noClosing).symm.trans found
      rw [takeWhile_upTo noOpening, takeWhile_upTo noClosing]

/-- The ways in which a text goes on to its next key. -/
theorem key_cases (cs : List Char) :
    '\x7b' ∉ cs ∨
      (∃ text rest, '\x7b' ∉ text ∧ '\x7d' ∉ rest ∧ cs = text ++ '\x7b' :: rest) ∨
      ∃ text key rest, '\x7b' ∉ text ∧ '\x7d' ∉ key ∧
        cs = text ++ '\x7b' :: (key ++ '\x7d' :: rest) := by
  by_cases opening : '\x7b' ∈ cs
  · obtain ⟨text, after, rfl, plain⟩ := List.eq_append_cons_of_mem opening
    by_cases closing : '\x7d' ∈ after
    · obtain ⟨key, rest, rfl, within⟩ := List.eq_append_cons_of_mem closing
      exact .inr (.inr ⟨text, key, rest, plain, within, rfl⟩)
    · exact .inr (.inl ⟨text, after, plain, closing, rfl⟩)
  · exact .inl opening

end Scan

section Fill

variable (arguments : List String) (named : List (String × String))

/-- Literal text may be cut anywhere: the next key is looked for behind it in any case. -/
theorem fill_ofChars_literal {text : List Char} (noOpening : '\x7b' ∉ text) (cs : List Char) :
    (ofChars (text ++ cs)).fill arguments named =
      String.ofList text ++ (ofChars cs).fill arguments named := by
  have longer {before : List Char} (plain : '\x7b' ∉ before) : '\x7b' ∉ text ++ before := by
    simp [noOpening, plain]
  rcases key_cases cs with plain | ⟨before, rest, plain, within, rfl⟩ |
    ⟨before, key, rest, plain, within, rfl⟩
  · rw [ofChars_literal plain, ofChars_literal (longer plain)]
    simp [fill, Piece.fill]
  · rw [← List.append_assoc, ofChars_unclosed plain within, ofChars_unclosed (longer plain) within]
    simp [fill, Piece.fill, String.append_assoc]
  · rw [← List.append_assoc, ofChars_hole plain within, ofChars_hole (longer plain) within]
    simp [fill, Piece.fill, String.append_assoc]

/-- The first piece is filled, and the search for keys goes on behind it. -/
theorem fill_ofText_piece {piece : Piece} (plain : piece.IsPlain) (rest : String) :
    (ofText (piece.toText ++ rest)).fill arguments named =
      piece.fill arguments named ++ (ofText rest).fill arguments named := by
  unfold ofText
  cases piece with
  | literal text =>
    rw [Piece.toText, String.toList_append, fill_ofChars_literal arguments named plain,
      String.ofList_toList, Piece.fill]
  | hole key =>
    have written : ((Piece.hole key).toText ++ rest).toList =
        [] ++ '\x7b' :: (key.toList ++ '\x7d' :: rest.toList) := by
      simp [Piece.toText]
    rw [written, ofChars_hole (by simp) plain, String.ofList_toList]
    simp [fill, Piece.fill]

theorem fill_ofText_pieces {pieces : Template} (plain : ∀ piece ∈ pieces, piece.IsPlain)
    (rest : String) :
    (ofText (pieces.toText ++ rest)).fill arguments named =
      pieces.fill arguments named ++ (ofText rest).fill arguments named := by
  induction pieces with
  | nil => simp [toText, fill]
  | cons piece pieces ih =>
    obtain ⟨first, others⟩ := List.forall_mem_cons.1 plain
    rw [toText, fill, String.append_assoc, fill_ofText_piece arguments named first, ih others,
      String.append_assoc]

theorem fill_eq_join (pieces : Template) :
    pieces.fill arguments named = String.join (pieces.map (Piece.fill arguments named)) := by
  induction pieces with
  | nil => rfl
  | cons piece pieces ih => rw [fill, ih, List.map_cons, String.join_cons]

theorem forall₂_gives_iff {pieces : Template} {texts : List String} :
    List.Forall₂ (Piece.Gives arguments named) pieces texts ↔
      pieces.map (Piece.fill arguments named) = texts := by
  have same : Piece.Gives arguments named = fun piece text => piece.fill arguments named = text :=
    funext fun _ => funext fun _ => propext Piece.gives_iff
  rw [same, ← List.forall₂_eq_eq_eq, List.forall₂_map_left_iff]

end Fill

/-- A template as it is written: its pieces, and behind them nothing or a brace that is never
closed. -/
structure Written where
  pieces : Template
  tail : String
  plain : ∀ piece ∈ pieces, piece.IsPlain
  unclosed : tail = "" ∨ ∃ rest : String, tail = "\x7b" ++ rest ∧ '\x7d' ∉ rest.toList

namespace Written

def text (written : Written) : String := written.pieces.toText ++ written.tail

/-- The same template behind literal text and a key. -/
def behind (written : Written) (literal key : String) (noOpening : '\x7b' ∉ literal.toList)
    (noClosing : '\x7d' ∉ key.toList) : Written where
  pieces := .literal literal :: .hole key :: written.pieces
  tail := written.tail
  plain := List.forall_mem_cons.2 ⟨noOpening, List.forall_mem_cons.2 ⟨noClosing, written.plain⟩⟩
  unclosed := written.unclosed

theorem exists_text (text : String) : ∃ written : Written, written.text = text := by
  -- The text behind a key is shorter than the text.
  induction size : text.toList.length using Nat.strongRecOn generalizing text with
  | ind length ih =>
    rcases key_cases text.toList with plain | ⟨before, rest, plain, within, spelled⟩ |
      ⟨before, key, rest, plain, within, spelled⟩
    · exact ⟨⟨[.literal text], "", by simpa [Piece.IsPlain] using plain, .inl rfl⟩,
        by simp [Written.text, toText, Piece.toText]⟩
    · refine ⟨⟨[.literal (String.ofList before)], "\x7b" ++ String.ofList rest,
        by simpa [Piece.IsPlain] using plain, .inr ⟨_, rfl, by simpa using within⟩⟩, ?_⟩
      rw [← String.toList_inj, spelled]
      simp [Written.text, toText, Piece.toText]
    · have shorter : (String.ofList rest).toList.length < length := by
        rw [← size, spelled]
        simp only [String.toList_ofList, List.length_append, List.length_cons]
        omega
      obtain ⟨written, same⟩ := ih _ shorter _ rfl
      refine ⟨written.behind (String.ofList before) (String.ofList key) (by simpa using plain)
        (by simpa using within), ?_⟩
      rw [Written.text, ← String.toList_inj] at same
      simp only [String.toList_append, String.toList_ofList] at same
      rw [← String.toList_inj, spelled]
      simp [Written.text, behind, toText, Piece.toText, same]

theorem fill_tail (arguments : List String) (named : List (String × String)) (written : Written) :
    (ofText written.tail).fill arguments named = written.tail := by
  rcases written.unclosed with nothing | ⟨rest, same, noClosing⟩
  · rw [nothing, ofText, ofChars_literal (by simp)]
    simp [fill, Piece.fill]
  · have spelled : written.tail.toList = [] ++ '\x7b' :: rest.toList := by simp [same]
    rw [ofText, spelled, ofChars_unclosed (by simp) noClosing, ← List.nil_append ('\x7b' :: _),
      ← spelled]
    simp [fill, Piece.fill]

end Written

/-- Every text is a template, and however it is cut into pieces, filling it gives the texts of the
pieces one after the other and then the tail. -/
theorem fill_ofText (arguments : List String) (named : List (String × String)) :
    (∀ text, ∃ written : Written, written.text = text) ∧
      ∀ (written : Written) (result : String),
        (ofText written.text).fill arguments named = result ↔
          ∃ texts, List.Forall₂ (Piece.Gives arguments named) written.pieces texts ∧
            result = String.join texts ++ written.tail := by
  refine ⟨Written.exists_text, fun written result => ?_⟩
  have filled : (ofText written.text).fill arguments named =
      String.join (written.pieces.map (Piece.fill arguments named)) ++ written.tail := by
    rw [Written.text, fill_ofText_pieces arguments named written.plain, written.fill_tail,
      fill_eq_join]
  simp only [filled, forall₂_gives_iff, exists_eq_left', eq_comm (b := result)]

/-- A key in a text that is put in stays as it stands there. -/
example : (ofText "f(\x7b*\x7d) \x7b").fill ["\x7b*\x7d", "x"] [] = "f(\x7b*\x7d, x) \x7b" := by
  decide_cbv

end Template

/-- Filling the pieces that the table lists for a function is filling its template as it is
written. -/
theorem Signature.fill_toText {signature : Signature} (known : signature ∈ table)
    (arguments : List String) (named : List (String × String)) :
    (Template.ofText signature.template.toText).fill arguments named =
      signature.template.fill arguments named := by
  have plain : ∀ signature ∈ table, ∀ piece ∈ signature.template, piece.IsPlain := by decide
  have filled := Template.fill_ofText_pieces arguments named (plain signature known) ""
  rw [String.append_empty] at filled
  simpa [Template.ofText, Template.ofChars_literal, Template.fill, Piece.fill] using filled

end Formulary
