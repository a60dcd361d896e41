import Mathlib
import Formulary.Proofs.Blame
import Formulary.Proofs.Lexing

set_option autoImplicit false

namespace Formulary

namespace Text

/-- A byte position at which a text can be cut in two. -/
def IsCut (cs : List Char) (position : Nat) : Prop :=
  ∃ before after, cs = before ++ after ∧ position = byteSize before

theorem IsCut.isValid {source : String} {position : Nat} (cut : IsCut source.toList position) :
    position ≤ source.utf8ByteSize ∧ (⟨position⟩ : String.Pos.Raw).IsValid source := by
  obtain ⟨before, after, whole, rfl⟩ := cut
  have parts : source = String.ofList before ++ String.ofList after := by
    rw [← String.toList_inj, whole]
    simp
  constructor
  · rw [parts, String.utf8ByteSize_append, utf8ByteSize_ofList]
    exact Nat.le_add_right _ _
  · rw [String.Pos.Raw.isValid_iff_exists_append]
    refine ⟨_, _, parts, ?_⟩
    rw [← utf8ByteSize_ofList]
    rfl

end Text

/-- Tokens start and stop where the formula can be cut. -/
theorem isCut_of_placed {source : String} {tokens : List Token} {position : Nat}
    (lexed : tokenize source = .ok tokens) (placed : Placed tokens position) :
    Text.IsCut source.toList position := by
  have run : Lexes [] 0 source.toList tokens := tokensFrom_eq_ok.1 lexed
  cases placed with
  | zero => exact ⟨[], source.toList, rfl, rfl⟩
  | start inside =>
    obtain ⟨before, part, after, whole, starts, -⟩ := run.exists_part _ inside
    exact ⟨before, part ++ after, whole, by rw [starts, Nat.zero_add]⟩
  | stop inside =>
    obtain ⟨before, part, after, whole, starts, stops, -⟩ := run.exists_part _ inside
    refine ⟨before ++ part, after, by rw [whole, List.append_assoc], ?_⟩
    rw [stops, starts, Text.byteSize_append, Nat.zero_add]

/-- A list of arguments is refused by the lexer, or for a fault that arises from its tokens. -/
theorem arises_of_argumentTexts {source : String} {fault : Fault}
    (failed : argumentTexts source = .error fault) :
    tokenize source = .error fault ∨
      ∃ tokens, tokenize source = .ok tokens ∧ fault.Arises source.toList tokens := by
  cases lexed : tokenize source with
  | error other =>
    rw [argumentTexts, lexed] at failed
    cases failed
    exact .inl rfl
  | ok tokens =>
    refine .inr ⟨tokens, rfl, ?_⟩
    have ends := @splitArguments_ends source.toList tokens tokens (List.Subset.refl tokens)
    cases split : splitArguments tokens with
    | error other =>
      rw [argumentTexts, lexed] at failed
      simp only [bind, Except.bind, split] at failed
      cases failed
      exact ends.error split
    | ok arguments =>
      rw [argumentTexts, lexed] at failed
      simp only [bind, Except.bind, split] at failed
      cases failed

/-- Every position in a fault, of a formula, of a list of arguments or of a join condition, is
within the text and between two of its characters. If it is the lexer that refuses the text, then
something is left of it there that starts no token. -/
theorem malformed_position (source : String) :
    (∀ position cause,
      tokenize source = .error (.malformed position cause) ∨
          argumentTexts source = .error (.malformed position cause) ∨
          (Formula.compile source).result = .error (.malformed position cause) ∨
          joinCollection source = .error (.malformed position cause) →
        position ≤ source.utf8ByteSize ∧ (⟨position⟩ : String.Pos.Raw).IsValid source) ∧
    ∀ fault, tokenize source = .error fault →
      ∃ before after cause, source = before ++ after ∧
        fault = .malformed before.utf8ByteSize cause ∧
        before.utf8ByteSize < source.utf8ByteSize ∧ Lexeme.read? after.toList = none := by
  constructor
  · intro position cause refused
    apply Text.IsCut.isValid
    have lexer (failed : tokenize source = .error (.malformed position cause)) :
        Text.IsCut source.toList position := by
      obtain ⟨before, after, -, _, rfl, -, -, -, same⟩ := lexes_of_tokenize_error failed
      cases same
      exact ⟨before.toList, after.toList, String.toList_append, Text.utf8ByteSize_eq before⟩
    have reader (failed : tokenize source = .error (.malformed position cause) ∨
        ∃ tokens, tokenize source = .ok tokens ∧
          (Fault.malformed position cause).Arises source.toList tokens) :
        Text.IsCut source.toList position := by
      rcases failed with failed | ⟨tokens, lexed, arises⟩
      · exact lexer failed
      · exact isCut_of_placed lexed arises.1
    rcases refused with failed | failed | failed | failed
    · exact lexer failed
    · exact reader (arises_of_argumentTexts failed)
    · exact reader (Formula.arises_of_compile failed)
    · rcases arises_of_joinCollection failed with failed | other | other
      · exact lexer failed
      · cases other
      · cases other
  · intro fault failed
    obtain ⟨before, after, -, cause, rfl, nonempty, -, unread, rfl⟩ :=
      lexes_of_tokenize_error failed
    refine ⟨before, after, cause, rfl, rfl, ?_, unread⟩
    have positive : 0 < Text.byteSize after.toList :=
      Text.byteSize_pos (mt String.toList_eq_nil_iff.1 nonempty)
    rw [String.utf8ByteSize_append, Text.utf8ByteSize_eq after]
    omega

end Formulary
