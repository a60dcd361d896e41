import Formulary.Proofs.Blame
import Formulary.Proofs.Sweep

set_option autoImplicit false

namespace Formulary

/-- The ends of lines in the text are characters of the source. -/
def EndsWithin (source : List Char) (text : String) : Prop :=
  ∀ c ∈ text.toList, isLineEnd c = true → c ∈ source

section EndsWithin

variable {source : List Char}

@[simp] theorem endsWithin_append (first second : String) :
    EndsWithin source (first ++ second) ↔ EndsWithin source first ∧ EndsWithin source second := by
  simp only [EndsWithin, String.toList_append, List.forall_mem_append]

theorem endsWithin_of_subset {text : String} (inside : text.toList ⊆ source) :
    EndsWithin source text := fun _ member _ => inside member

theorem endsWithin_of_forall {text : String} (flat : ∀ c ∈ text.toList, isLineEnd c = false) :
    EndsWithin source text := by
  intro c member ends
  rw [flat c member] at ends
  cases ends

/-- A text that is always the same. -/
theorem endsWithin_fixed {text : String} (flat : text.toList.all (!isLineEnd ·) = true) :
    EndsWithin source text := by
  apply endsWithin_of_forall
  intro c member
  simpa using List.all_eq_true.1 flat c member

theorem EndsWithin.behind {before text : String} (inner : EndsWithin source text)
    (flat : before.toList.all (!isLineEnd ·) = true) : EndsWithin source (before ++ text) :=
  (endsWithin_append before text).2 ⟨endsWithin_fixed flat, inner⟩

theorem EndsWithin.between {before text behind : String} (inner : EndsWithin source text)
    (flatBefore : before.toList.all (!isLineEnd ·) = true)
    (flatBehind : behind.toList.all (!isLineEnd ·) = true) :
    EndsWithin source (before ++ text ++ behind) :=
  (endsWithin_append _ behind).2 ⟨inner.behind flatBefore, endsWithin_fixed flatBehind⟩

theorem not_isLineEnd_of_isBlank {c : Char} (seen : Text.isBlank c = false) :
    isLineEnd c = false := by
  rw [← Bool.not_eq_true]
  intro ends
  simp only [isLineEnd, Bool.or_eq_true, beq_iff_eq] at ends
  rcases ends with rfl | rfl <;> cases seen

theorem not_isLineEnd_of_isPlain {c : Char} (plain : isPlain c = true) : isLineEnd c = false :=
  not_isLineEnd_of_isBlank (isBlank_of_isPlain plain)

theorem Plain.endsWithin {text : String} (plain : Plain text) : EndsWithin source text :=
  endsWithin_of_forall fun c member =>
    not_isLineEnd_of_isPlain (List.all_eq_true.1 plain.2 c member)

theorem endsWithin_natural (n : Nat) : EndsWithin source (toString n) := by
  apply endsWithin_of_forall
  intro c member
  rw [Nat.toString_eq_repr, Nat.toList_repr] at member
  have digit := Nat.isDigit_of_mem_toDigits (by decide) (by decide) member
  exact not_isLineEnd_of_isPlain (isPlain_of_isDigit digit)

theorem endsWithin_integer (n : Int) : EndsWithin source (toString n) := by
  cases n with
  | ofNat n => exact endsWithin_natural n
  | negSucc n =>
    have sign : EndsWithin source "-" := endsWithin_fixed (by decide)
    exact (endsWithin_append "-" _).2 ⟨sign, endsWithin_natural (n + 1)⟩

theorem isLineEnd_toUpper {c : Char} (ends : isLineEnd c.toUpper = true) : isLineEnd c = true := by
  unfold Char.toUpper at ends
  split at ends
  · rename_i lower
    simp only [Char.reduceVal, UInt32.le_iff_toNat_le, UInt32.reduceToNat] at lower
    simp only [isLineEnd, Bool.or_eq_true, beq_iff_eq, Char.ext_iff, Char.reduceVal,
      ← UInt32.toNat_inj, UInt32.toNat_add, UInt32.reduceToNat, UInt32.reduceSub] at ends
    omega
  · exact ends

theorem endsWithin_toUpper {name : String} (plain : Plain name) :
    EndsWithin source name.toUpper := by
  intro c member ends
  rw [String.toUpper, String.toList_map] at member
  obtain ⟨lower, inside, rfl⟩ := List.mem_map.1 member
  exact absurd (isLineEnd_toUpper ends)
    (by simp [not_isLineEnd_of_isPlain (List.all_eq_true.1 plain.2 lower inside)])

end EndsWithin

namespace Text

theorem dropBytes_subset (count : Nat) (cs : List Char) : dropBytes count cs ⊆ cs := by
  fun_induction dropBytes count cs with
  | case1 cs => exact List.Subset.refl cs
  | case2 => exact List.Subset.refl []
  | case3 count c cs ih => exact List.Subset.trans ih (List.subset_cons_self c cs)

theorem takeBytes_subset (count : Nat) (cs : List Char) : takeBytes count cs ⊆ cs := by
  fun_induction takeBytes count cs with
  | case1 => exact List.nil_subset _
  | case2 => exact List.Subset.refl []
  | case3 count c cs ih => exact List.cons_subset_cons c ih

theorem slice_subset (source : List Char) (start stop : Nat) :
    (slice source start stop).toList ⊆ source := by
  rw [slice, String.toList_ofList]
  exact List.Subset.trans (takeBytes_subset _ _) (dropBytes_subset _ _)

end Text

theorem Lexeme.text_of_string {cs : List Char} {lexeme : Lexeme} {literal : String}
    (found : read? cs = some lexeme) (kind : lexeme.kind = .string literal) :
    literal.toList = lexeme.text := by
  simp only [read?, Option.orElse_eq_orElse, Option.orElse_eq_or, Option.or_eq_some_iff] at found
  rcases found with number | ⟨_, string | ⟨_, word | ⟨_, symbol⟩⟩⟩
  · unfold number? at number
    simp only at number
    split at number <;> cases number
    cases kind
  · unfold string? at string
    split at string
    · cases string
    · split at string
      · obtain ⟨_, _, rfl⟩ := Option.map_eq_some_iff.1 string
        cases kind
        exact String.toList_ofList
      · cases string
  · unfold word? at word
    split at word
    · cases word
    · split at word <;> cases word
      simp only [wordKind] at kind
      split at kind <;> cases kind
  · unfold symbol? at symbol
    split at symbol <;> cases symbol <;> cases kind

theorem Token.kind_of_literal? {token : Token} {literal : String}
    (isLiteral : token.literal? = some literal) : token.kind = .string literal := by
  unfold literal? at isLiteral
  split at isLiteral
  · rename_i kind
    rw [kind, Option.some.inj isLiteral]
  · cases isLiteral

/-- A literal is a stretch of the text that was cut into tokens. -/
theorem literal_subset_of_tokensFrom {start : Nat} {cs : List Char} {tokens : List Token}
    (success : tokensFrom start cs = .ok tokens) :
    ∀ token ∈ tokens, ∀ literal, token.literal? = some literal → literal.toList ⊆ cs := by
  fun_induction tokensFrom start cs generalizing tokens with
  | case1 =>
    cases success
    simp
  | case2 start c cs separator ih =>
    intro token member literal kind
    exact List.Subset.trans (ih success token member literal kind) (List.subset_cons_self c cs)
  | case3 => cases success
  | case4 start c cs separator lexeme found stop =>
    rename_i ih
    obtain ⟨-, whole⟩ := Lexeme.read?_splits found
    cases behind : tokensFrom stop lexeme.rest with
    | error fault =>
      rw [behind] at success
      cases success
    | ok rest =>
      rw [behind] at success
      cases success
      rw [← whole]
      refine List.forall_mem_cons.2 ⟨?_, ?_⟩
      · intro literal isLiteral
        rw [Lexeme.text_of_string found (Token.kind_of_literal? isLiteral)]
        exact List.subset_append_left _ _
      · intro token member literal kind
        exact List.Subset.trans (ih behind token member literal kind) (List.subset_append_right _ _)

/-- Tokens with texts that the lexer takes for their kinds, and with literals from the source. -/
structure CutFrom (source : List Char) (tokens : List Token) : Prop where
  lexed : Lexed tokens
  literals : ∀ token ∈ tokens, ∀ literal, token.literal? = some literal → literal.toList ⊆ source

theorem cutFrom_of_tokenize {formula : String} {tokens : List Token}
    (success : tokenize formula = .ok tokens) : CutFrom formula.toList tokens :=
  ⟨tokenize_lexed success, literal_subset_of_tokensFrom success⟩

section Wording

variable {source : List Char} {tokens : List Token}

theorem endsWithin_malformed (position : Nat) {cause : SyntaxCause}
    (quoted : EndsWithin source cause.message) :
    EndsWithin source (Fault.malformed position cause).message := by
  refine (endsWithin_append _ _).2 ?_
  exact ⟨(endsWithin_natural position).between (by decide) (by decide), quoted⟩

theorem endsWithin_character {c : Char} (flat : isLineEnd c = false) :
    EndsWithin source c.toString := by
  apply endsWithin_of_forall
  intro other member
  rw [Char.toString, String.toList_singleton, List.mem_singleton] at member
  rw [member, flat]

theorem endsWithin_strayCause {c : Char} (flat : isLineEnd c = false) :
    EndsWithin source (strayCause c).message := by
  unfold strayCause
  split
  · exact (endsWithin_character flat).behind (by decide)
  · exact (endsWithin_character flat).between (by decide) (by decide)

/-- What the lexer refuses is an open literal or a character other than an end of a line. -/
theorem endsWithin_of_tokensFrom {start : Nat} {cs : List Char} {fault : Fault}
    (failed : tokensFrom start cs = .error fault) : EndsWithin source fault.message := by
  fun_induction tokensFrom start cs with
  | case1 => cases failed
  | case2 start c cs separator ih => exact ih failed
  | case3 start c cs separator unread =>
    have flat : isLineEnd c = false := by
      simp only [isSeparator, Bool.or_eq_true, beq_iff_eq, not_or] at separator
      simp [isLineEnd, separator]
    rw [← Except.error.inj failed]
    exact endsWithin_malformed start (endsWithin_strayCause flat)
  | case4 start c cs separator lexeme found stop =>
    rename_i ih
    cases behind : tokensFrom stop lexeme.rest with
    | error other =>
      rw [behind] at failed
      cases failed
      exact ih behind
    | ok rest =>
      rw [behind] at failed
      cases failed

theorem CutFrom.describe (cut : CutFrom source tokens) {token : Token} (inside : token ∈ tokens) :
    EndsWithin source token.kind.describe := by
  have lexed := cut.lexed token inside
  cases kind : token.kind with
  | ident name =>
    rw [kind] at lexed
    exact (plain_of_isWord lexed).endsWithin.between (by decide) (by decide)
  | number digits =>
    rw [kind] at lexed
    exact (plain_of_isNumeral lexed).endsWithin.behind (by decide)
  | string literal =>
    have isLiteral : token.literal? = some literal := by rw [Token.literal?, kind]
    exact (endsWithin_of_subset (cut.literals token inside literal isLiteral)).behind (by decide)
  | keyword word => cases word <;> exact endsWithin_fixed (by decide)
  | _ => exact endsWithin_fixed (by decide)

theorem Signature.plain_name : ∀ signature ∈ Signature.table, Plain signature.name := by
  decide

theorem Quotable.endsWithin {text : String} (quotable : Quotable source tokens text)
    (cut : CutFrom source tokens) : EndsWithin source text := by
  cases quotable with
  | slice start stop => exact endsWithin_of_subset (Text.slice_subset source start stop)
  | @called token name inside kind =>
    have lexed := cut.lexed token inside
    unfold calledName? at kind
    split at kind
    · rename_i same
      rw [same] at lexed
      cases kind
      exact endsWithin_toUpper (plain_of_isWord lexed)
    · cases kind
      exact endsWithin_toUpper (by decide)
    · cases kind
  | listed inTable => exact (Signature.plain_name _ inTable).endsWithin

namespace SyntaxCause

theorem Arises.endsWithin {cause : SyntaxCause} (arises : cause.Arises tokens)
    (cut : CutFrom source tokens) : EndsWithin source cause.message := by
  cases cause with
  | unexpectedToken kind =>
    obtain ⟨token, inside, rfl⟩ := arises
    exact (cut.describe inside).behind (by decide)
  | missing wanted found =>
    obtain ⟨closing, inside⟩ := arises
    have bracket : EndsWithin source wanted.describe := by
      cases wanted with
      | closeParen => exact endsWithin_fixed (by decide)
      | closeBracket => exact endsWithin_fixed (by decide)
      | _ => cases closing
    cases found with
    | none => exact bracket.behind (by decide)
    | some kind =>
      obtain ⟨token, member, rfl⟩ := inside kind rfl
      unfold message
      rw [endsWithin_append]
      exact ⟨bracket.between (by decide) (by decide), cut.describe member⟩
  | unterminatedString | strayCharacter => exact arises.elim
  | _ => exact endsWithin_fixed (by decide)

end SyntaxCause

namespace ClauseCause

theorem Arises.endsWithin {cause : ClauseCause} (arises : cause.Arises source tokens)
    (cut : CutFrom source tokens) : EndsWithin source cause.message := by
  cases cause with
  | comma offset => exact (endsWithin_natural offset).behind (by decide)
  | memberNotName found =>
    have quoted := Quotable.endsWithin arises cut
    exact quoted.between (by decide) (by decide)
  | _ => exact endsWithin_fixed (by decide)

end ClauseCause

namespace KeywordCause

theorem Arises.endsWithin {cause : KeywordCause} (arises : cause.Arises source tokens)
    (cut : CutFrom source tokens) : EndsWithin source cause.message := by
  have named (key : Call.ArgumentKey) : EndsWithin source key.name := by
    cases key <;> exact endsWithin_fixed (by decide)
  cases cause with
  | inPositional key | unknownKey key | duplicate key | missingValue key =>
    obtain ⟨known, rfl⟩ := arises
    exact (named known).between (by decide) (by decide)
  | axisExpected found | axisOrIndexExpected found =>
    have quoted := Quotable.endsWithin arises cut
    exact quoted.between (by decide) (by decide)
  | bothRequired => exact endsWithin_fixed (by decide)
  | axisOutOfRange axis =>
    have largest := @endsWithin_natural source maxLiteralAxis
    unfold message
    rw [endsWithin_append, endsWithin_append]
    exact ⟨⟨(endsWithin_integer axis).between (by decide) (by decide), largest⟩,
      endsWithin_fixed (by decide)⟩

end KeywordCause

theorem endsWithin_countsText (least most : Nat) :
    EndsWithin source (Fault.countsText least most) := by
  unfold Fault.countsText
  split
  · exact endsWithin_natural least
  · split
    · exact (endsWithin_natural least).behind (by decide)
    · exact (endsWithin_append _ _).2 ⟨(endsWithin_append _ _).2
        ⟨endsWithin_natural least, endsWithin_fixed (by decide)⟩, endsWithin_natural most⟩

namespace Fault

theorem Arises.endsWithin {fault : Fault} (arises : fault.Arises source tokens)
    (cut : CutFrom source tokens) : EndsWithin source fault.message := by
  cases fault with
  | unknownFunction name => exact (Quotable.endsWithin arises cut).behind (by decide)
  | arityMismatch name least most got =>
    unfold message
    simp only [endsWithin_append]
    exact ⟨⟨⟨⟨Quotable.endsWithin arises cut, endsWithin_fixed (by decide)⟩,
      endsWithin_countsText least most⟩, endsWithin_fixed (by decide)⟩, endsWithin_natural got⟩
  | keywordArgument function cause | aggregationClause function cause =>
    obtain ⟨quoted, arises⟩ := arises
    refine (endsWithin_append _ _).2 ?_
    exact ⟨(quoted.endsWithin cut).between (by decide) (by decide), arises.endsWithin cut⟩
  | multiDotReference text =>
    exact (Quotable.endsWithin arises cut).between (by decide) (by decide)
  | joinCondition => exact arises.elim
  | malformed position cause => exact endsWithin_malformed position (arises.2.endsWithin cut)

end Fault

end Wording

end Formulary
