import Mathlib
import Formulary.Formula.Conditional
import Formulary.Proofs.Carried
import Formulary.Proofs.Lexing

set_option autoImplicit false

namespace Formulary

/-- A closing bracket is looked for behind these tokens, however many are open in front of them. -/
def Balanced (tokens : List Token) : Prop :=
  ∀ (depth : Nat) (rest : List Token),
    upToClose depth (tokens ++ rest) =
      (upToClose depth rest).map fun parts => (tokens ++ parts.1, parts.2)

/-- Neither a round bracket nor THEN. -/
def Kind.isInert : Kind → Bool
  | .openParen => false
  | .closeParen => false
  | .keyword .thenWord => false
  | _ => true

section Balanced

variable {opening closing token : Token} {first second inside : List Token}

theorem balanced_nil : Balanced [] := by
  intro depth rest
  simp

theorem Balanced.append (before : Balanced first) (behind : Balanced second) :
    Balanced (first ++ second) := by
  intro depth rest
  rw [List.append_assoc, before, behind, Option.map_map]
  simp [Function.comp_def]

theorem balanced_one (notOpen : token.kind ≠ .openParen) (notClose : token.kind ≠ .closeParen) :
    Balanced [token] := fun depth _ => upToClose_cons depth notOpen notClose

theorem Balanced.enclosed (within : Balanced inside) (opens : opening.kind = .openParen)
    (closes : closing.kind = .closeParen) : Balanced (opening :: (inside ++ [closing])) := by
  intro depth rest
  have closed : upToClose (depth + 1) (closing :: rest) =
      (upToClose depth rest).map (consFirst closing) := by
    simp only [upToClose, closes]
  rw [List.cons_append, List.append_assoc, List.singleton_append]
  simp only [upToClose, opens]
  rw [within, closed, Option.map_map, Option.map_map]
  simp [Function.comp_def, consFirst]

end Balanced

/-- Whether THEN stands among the tokens. -/
def HasThen (tokens : List Token) : Prop := ∃ token ∈ tokens, token.kind = .keyword .thenWord

theorem startsConditional_iff {keyword opening : Token} {rest : List Token} :
    startsConditional (keyword :: opening :: rest) = true ↔
      keyword.kind = .keyword .ifWord ∧ opening.kind = .openParen ∧
        ∃ inside next after, upToClose 0 rest = some (inside, next :: after) ∧
          next.kind = .keyword .thenWord := by
  rw [startsConditional, Bool.and_eq_true, Bool.and_eq_true, beq_iff_eq, beq_iff_eq, and_assoc]
  apply and_congr_right
  intro _
  apply and_congr_right
  intro _
  split
  · rename_i inside next after found
    simp [found]
  · rename_i other
    simp only [Bool.false_eq_true, false_iff]
    rintro ⟨inside, next, after, found, -⟩
    exact other inside next after found

theorem startsConditional_append {tokens : List Token} (rest : List Token)
    (starts : startsConditional tokens = true) : startsConditional (tokens ++ rest) = true := by
  match tokens with
  | [] => cases starts
  | [token] => cases starts
  | keyword :: opening :: tokens =>
    obtain ⟨isIf, opens, inside, next, after, found, isThen⟩ := startsConditional_iff.1 starts
    have further := upToClose_extend rest found
    exact startsConditional_iff.2 ⟨isIf, opens, inside, next, after ++ rest, further, isThen⟩

theorem holdsConditional_append {first second : List Token}
    (holds : holdsConditional first = true ∨ holdsConditional second = true) :
    holdsConditional (first ++ second) = true := by
  induction first with
  | nil =>
    rcases holds with impossible | behind
    · cases impossible
    · exact behind
  | cons token first ih =>
    rw [List.cons_append, holdsConditional, Bool.or_eq_true]
    rcases holds with here | behind
    · rw [holdsConditional, Bool.or_eq_true] at here
      rcases here with starts | later
      · exact .inl (startsConditional_append second starts)
      · exact .inr (ih (.inl later))
    · exact .inr (ih (.inr behind))

/-- The detector reports a THEN that is there. -/
theorem hasThen_of_holdsConditional {tokens : List Token}
    (holds : holdsConditional tokens = true) : HasThen tokens := by
  induction tokens with
  | nil => cases holds
  | cons token tokens ih =>
    rw [holdsConditional, Bool.or_eq_true] at holds
    rcases holds with starts | later
    · cases tokens with
      | nil => cases starts
      | cons opening rest =>
        obtain ⟨-, -, inside, next, after, found, isThen⟩ := startsConditional_iff.1 starts
        obtain ⟨closing, rfl, -⟩ := upToClose_append found
        exact ⟨next, by simp, isThen⟩
    · obtain ⟨found, member, isThen⟩ := ih later
      exact ⟨found, List.mem_cons_of_mem token member, isThen⟩

/-- Tokens that close their brackets, and whose THEN the detector finds. -/
structure Settled (tokens : List Token) : Prop where
  balanced : Balanced tokens
  holds : HasThen tokens → holdsConditional tokens = true

section Settled

variable {opening closing token : Token} {first second tokens inside : List Token}

theorem settled_nil : Settled [] := ⟨balanced_nil, by simp [HasThen]⟩

theorem Settled.append (before : Settled first) (behind : Settled second) :
    Settled (first ++ second) := by
  refine ⟨before.balanced.append behind.balanced, ?_⟩
  rintro ⟨token, member, isThen⟩
  apply holdsConditional_append
  rcases List.mem_append.1 member with here | later
  · exact .inl (before.holds ⟨token, here, isThen⟩)
  · exact .inr (behind.holds ⟨token, later, isThen⟩)

theorem settled_one (inert : token.kind.isInert = true) : Settled [token] := by
  refine ⟨balanced_one ?_ ?_, ?_⟩
  · intro kind
    simp [kind, Kind.isInert] at inert
  · intro kind
    simp [kind, Kind.isInert] at inert
  · rintro ⟨found, member, isThen⟩
    rw [List.mem_singleton] at member
    simp [← member, isThen, Kind.isInert] at inert

theorem Settled.cons (inert : token.kind.isInert = true) (others : Settled tokens) :
    Settled (token :: tokens) := (settled_one inert).append others

theorem settled_of_forall (inert : ∀ token ∈ tokens, token.kind.isInert = true) :
    Settled tokens := by
  induction tokens with
  | nil => exact settled_nil
  | cons token tokens ih =>
    apply Settled.cons (inert token (by simp))
    exact ih fun other member => inert other (by simp [member])

theorem Settled.enclosed (within : Settled inside) (opens : opening.kind = .openParen)
    (closes : closing.kind = .closeParen) : Settled (opening :: (inside ++ [closing])) := by
  refine ⟨within.balanced.enclosed opens closes, ?_⟩
  rintro ⟨token, member, isThen⟩
  have here : token ∈ inside := by
    rw [List.mem_cons, List.mem_append, List.mem_singleton] at member
    rcases member with rfl | here | rfl
    · simp [opens] at isThen
    · exact here
    · simp [closes] at isThen
  have found := within.holds ⟨token, here, isThen⟩
  have behind : holdsConditional (inside ++ [closing]) = true :=
    holdsConditional_append (.inl found)
  exact @holdsConditional_append [opening] _ (.inr behind)

/-- The bracket behind IF closes in front of this THEN, and the detector stops there. -/
theorem Settled.conditional {ifToken thenToken : Token} (within : Settled inside)
    (behind : Settled tokens) (isIf : ifToken.kind = .keyword .ifWord)
    (opens : opening.kind = .openParen) (closes : closing.kind = .closeParen)
    (isThen : thenToken.kind = .keyword .thenWord) :
    Settled (ifToken :: opening :: (inside ++ closing :: thenToken :: tokens)) := by
  refine ⟨?_, ?_⟩
  · have keyword : Balanced [ifToken] := balanced_one (by simp [isIf]) (by simp [isIf])
    have word : Balanced [thenToken] := balanced_one (by simp [isThen]) (by simp [isThen])
    have whole := (keyword.append (within.balanced.enclosed opens closes)).append
      (word.append behind.balanced)
    simpa using whole
  · intro _
    have closed :
        upToClose 0 (closing :: thenToken :: tokens) = some ([], thenToken :: tokens) := by
      simp only [upToClose, closes]
    have found : upToClose 0 (inside ++ closing :: thenToken :: tokens) =
        some (inside, thenToken :: tokens) := by
      rw [within.balanced, closed]
      simp
    rw [holdsConditional, Bool.or_eq_true]
    exact .inl (startsConditional_iff.2 ⟨isIf, opens, inside, thenToken, tokens, found, isThen⟩)

end Settled

theorem isInert_of_eq {kind other : Kind} (same : kind = other) (inert : other.isInert = true) :
    kind.isInert = true := same ▸ inert

theorem isInert_of_infixOperator? {kind : Kind} {op : BinaryOp}
    (known : infixOperator? kind = some op) : kind.isInert = true := by
  cases kind with
  | keyword word => cases word <;> first | rfl | cases known
  | _ => first | rfl | cases known

theorem isInert_of_calledName? {kind : Kind} {name : String}
    (known : calledName? kind = some name) : kind.isInert = true := by
  cases kind with
  | keyword word => cases word <;> first | rfl | cases known
  | _ => first | rfl | cases known

theorem settled_of_referenceNames? {tokens : List Token} {names : List String}
    (dotted : referenceNames? tokens = some names) : Settled tokens := by
  apply settled_of_forall
  intro token member
  rcases (referenceNames?_tokens dotted).1 token member with ⟨name, named⟩ | mark
  · rw [named]
    rfl
  · cases kind : token.kind with
    | dot => rfl
    | arrow => rfl
    | _ =>
      rw [kind] at mark
      cases mark

/-- Whatever the rules read closes its brackets, and a THEN in it follows the brackets of an IF: by
induction over the rules, of which one has a THEN. -/
theorem settled_of_reads {scope : Scope} {tokens : List Token} {reading : Reading}
    (reads : Reads scope tokens reading) : Settled tokens := by
  induction reads with
  | number kind | text kind => exact settled_one (isInert_of_eq kind rfl)
  | literal kind known => exact settled_one (isInert_of_eq kind rfl)
  | reference dotted resolved => exact settled_of_referenceNames? dotted
  | group opens closes inside ih => exact ih.enclosed opens closes
  | tuple opens closes inside several ih => exact ih.enclosed opens closes
  | list opens closes inside ih =>
    have closing := ih.append (settled_one (isInert_of_eq closes rfl))
    exact closing.cons (isInert_of_eq opens rfl)
  | nothing => exact settled_nil
  | more first kind others ihFirst ihOthers =>
    exact ihFirst.append (ihOthers.cons (isInert_of_eq kind rfl))
  | not kind operand ih | negate kind operand ih | positive kind operand ih =>
    exact ih.cons (isInert_of_eq kind rfl)
  | binary kind first second ihFirst ihSecond =>
    exact ihFirst.append (ihSecond.cons (isInert_of_infixOperator? kind))
  | conditional isIf opens closes isThen isElse test first second ihTest ihFirst ihSecond =>
    have branches := ihFirst.append (ihSecond.cons (isInert_of_eq isElse rfl))
    exact ihTest.conditional branches isIf opens closes isThen
  | call kind opens closes inside ih =>
    exact (ih.enclosed opens closes).cons (isInert_of_calledName? kind)
  | positional found _ shape arity parts ih => exact ih
  | overMember found _ shape collection kind named ih =>
    have member := settled_one (isInert_of_eq named rfl)
    exact ih.append (member.cons (isInert_of_eq kind rfl))
  | keyword kind named known equals given ih =>
    have value := ih.cons (isInert_of_eq equals rfl)
    exact (value.cons (isInert_of_eq named rfl)).cons (isInert_of_eq kind rfl)
  | wholeArray found _ shape target ih => exact ih
  | alongAxis found _ shape target given ihTarget ihGiven => exact ihTarget.append ihGiven
  | slice found _ shape inRange target along place order ihTarget ihAlong ihPlace =>
    rcases order with rfl | rfl
    · exact ihTarget.append (ihAlong.append ihPlace)
    · exact ihTarget.append (ihPlace.append ihAlong)
  | receiver => exact settled_nil
  | named dotted resolved => exact settled_of_referenceNames? dotted
  | computed given _ ih => exact ih
  | absent => exact settled_nil
  | @present scope mark token tokens expr kind given ih =>
    exact ih.cons (by cases mark <;> simp [kind, Mark.kind, Kind.isInert])
  | reduce known source test value _ ihSource ihTest ihValue =>
    exact (ihSource.append ihTest).append ihValue
  | ownSource => exact settled_nil
  | givenSource source test kind _ ihSource ihTest =>
    exact (ihSource.append ihTest).append (settled_one (isInert_of_eq kind rfl))
  | key named kind body ih =>
    exact (ih.cons (isInert_of_eq kind rfl)).cons (isInert_of_eq named rfl)
  | extreme known source chosen ihSource ihChosen => exact ihSource.append ihChosen
  | top number kind source chosen ihNumber ihSource ihChosen =>
    exact ihNumber.append ((ihSource.append ihChosen).cons (isInert_of_eq kind rfl))

/-- In text that a sweep goes through, whatever literals it holds, the detector finds nothing. -/
theorem Carries.hasConditional {code : String} {found : Multiset String}
    (carries : Carries code found) : hasConditional code = false := by
  obtain ⟨list, finds, -⟩ := carries.finds
  rw [← Bool.not_eq_true]
  intro holds
  obtain ⟨token, member, isThen⟩ := hasThen_of_holdsConditional holds
  exact finds.2 token member isThen

namespace Formula

/-- In an accepted formula, the detector finds a conditional exactly if a THEN is there, and in its
code it finds none. -/
theorem compile_hasConditional {formula : String} {fragment : Fragment}
    (success : (compile formula).result = .ok fragment) :
    (∃ tokens, tokenize formula = .ok tokens ∧
        (hasConditional formula = true ↔
          ∃ token ∈ tokens, token.kind = .keyword .thenWord)) ∧
      hasConditional fragment.code = false := by
  obtain ⟨tokens, lexed, carries⟩ := carries_of_compile success
  refine ⟨⟨tokens, lexed, ?_⟩, carries.hasConditional⟩
  have settled : Settled tokens := by
    obtain ⟨expr, parsed, -⟩ := compile_eq_ok.1 success
    obtain ⟨again, same, ⟨rfl, -⟩ | reads⟩ := reads_of_parse parsed
    · rw [lexed] at same
      cases same
      exact settled_nil
    · rw [lexed] at same
      cases same
      exact settled_of_reads reads
  have lenient : tokenizeLenient formula = tokens := lenientTokensFrom_of_tokensFrom lexed
  rw [hasConditional, lenient]
  exact ⟨hasThen_of_holdsConditional, settled.holds⟩

/-- A conditional in a branch of another, behind a literal that spells one. -/
theorem compile_hasConditional_nested :
    ∃ fragment,
      (compile "LEN('IF (a) THEN') + IF ((a) > 1) THEN IF (b) THEN 1 ELSE 2 ELSE 3").result =
          .ok fragment ∧
        fragment.code =
          "(len('IF (a) THEN') + ((1 if self.b else 2) if (self.a > 1) else 3))" ∧
        (∃ tokens,
          tokenize "LEN('IF (a) THEN') + IF ((a) > 1) THEN IF (b) THEN 1 ELSE 2 ELSE 3" =
              .ok tokens ∧
            (hasConditional "LEN('IF (a) THEN') + IF ((a) > 1) THEN IF (b) THEN 1 ELSE 2 ELSE 3" =
                true ↔ ∃ token ∈ tokens, token.kind = .keyword .thenWord)) ∧
        hasConditional fragment.code = false := by
  have success :
      (compile "LEN('IF (a) THEN') + IF ((a) > 1) THEN IF (b) THEN 1 ELSE 2 ELSE 3").result =
        .ok ⟨"(len('IF (a) THEN') + ((1 if self.b else 2) if (self.a > 1) else 3))", .none⟩ :=
    eq_ok_of_toOption (by decide +kernel)
  exact ⟨_, success, rfl, compile_hasConditional success⟩

end Formula

end Formulary
