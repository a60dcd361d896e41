import Mathlib
import Formulary.Proofs.CallForms

set_option autoImplicit false

namespace Formulary

/-- The first computation may run out of levels, and the second one has more of them. -/
def Tolerance.shallow : Tolerance where
  allows fault other :=
    (∃ position, fault = .malformed position .nestedTooDeep) ∨
      other.map Fault.variant = some fault.variant
  variant same := .inr (congrArg some same.symm)
  rescue _ allowed := .inl (allowed.resolve_right nofun)

theorem Grammar.steady_tooDeep (reader : Reader) : Steady .shallow tooDeep reader := by
  intro source text scope stop final tokens others alike
  cases (reader ⟨text, scope, final⟩ others).result with
  | ok step => exact .rescued (.inl ⟨_, rfl⟩)
  | error fault => exact .error (.inl ⟨_, rfl⟩)

/-- What is read with levels to spare is read without them too, or refused as nested too deep. -/
theorem readWhole_shallow {levels spare : Nat} (source : List Char) {tokens others : List Token}
    {expr : Expr} (alike : Alike tokens others) (accepted : Alone (spare + levels) others expr) :
    (readWhole (Grammar.readerAt levels) source .entity tokens).result = .ok expr ∨
      ∃ position, (readWhole (Grammar.readerAt levels) source .entity tokens).result =
        .error (.malformed position .nestedTooDeep) := by
  have steady :=
    Grammar.steady_readerAt levels spare (fun _ => Grammar.steady_tooDeep _) .expression
  have follows := Grammar.steadySlices_readWhole steady source [] .entity alike
  unfold Alone at accepted
  rw [accepted] at follows
  generalize (readWhole (Grammar.readerAt levels) source .entity tokens).result = result
    at follows ⊢
  cases follows with
  | ok same =>
    rw [same]
    exact .inl rfl
  | rescued allowed =>
    obtain ⟨position, rfl⟩ := allowed.resolve_right nofun
    exact .inr ⟨position, rfl⟩

/-- So many levels of nesting, and no fewer, are enough to read the tokens as the expression. -/
def HasDepth (tokens : List Token) (expr : Expr) (depth : Nat) : Prop :=
  ∀ levels, Alone levels tokens expr ↔ depth ≤ levels

namespace Alone

variable {levels wider : Nat} {tokens : List Token} {expr other : Expr}

theorem mono (alone : Alone levels tokens expr) (le : levels ≤ wider) :
    Alone wider tokens expr := by
  rw [← Nat.sub_add_cancel le]
  exact alone.more

theorem unique (first : Alone levels tokens expr) (second : Alone levels tokens other) :
    expr = other := by
  unfold Alone at first second
  rw [first] at second
  exact Except.ok.inj second

theorem not_zero : ¬Alone 0 tokens expr := by
  intro alone
  exact Grammar.readerAt_zero (readWhole_eq_ok.1 alone).2

theorem exists_depth (alone : Alone levels tokens expr) :
    ∃ depth, 1 ≤ depth ∧ depth ≤ levels ∧ HasDepth tokens expr depth := by
  induction levels with
  | zero => exact absurd alone not_zero
  | succ levels ih =>
    by_cases fewer : Alone levels tokens expr
    · obtain ⟨depth, positive, within, least⟩ := ih fewer
      exact ⟨depth, positive, by omega, least⟩
    · refine ⟨levels + 1, by omega, Nat.le_refl _, fun given => ⟨fun enough => ?_, alone.mono⟩⟩
      by_contra few
      exact fewer (enough.mono (by omega))

end Alone

/-- Tokens in so many pairs of brackets. -/
def wrappedTokens : Nat → List Token → List Token
  | 0, tokens => tokens
  | count + 1, tokens => groupTokens (wrappedTokens count tokens) []

theorem wrappedTokens_ne_nil {tokens : List Token} (nonempty : tokens ≠ []) (count : Nat) :
    wrappedTokens count tokens ≠ [] := by
  cases count with
  | zero => exact nonempty
  | succ count => simp [wrappedTokens, groupTokens]

/-- What stands in brackets is read with one level less. -/
theorem alone_group {levels spare : Nat} {tokens : List Token} {expr whole : Expr}
    (accepted : Alone (spare + levels) tokens whole) :
    Alone (levels + 1) (groupTokens tokens []) expr ↔ Alone levels tokens expr := by
  have operand := @takes_group levels spare (endOffset (groupTokens tokens [])) tokens [] whole
    accepted
  have sum := Formula.takes_alone operand (notNext_cons.2 (by simp [bare]))
  have taken := sum.expression (notNext_cons.2 (by simp [bare])) expr []
  rw [Alone, readWhole_eq_ok]
  constructor
  · intro alone
    exact (taken.1 alone.2).2
  · intro alone
    exact ⟨by simp [groupTokens], taken.2 ⟨rfl, alone⟩⟩

/-- One pair of brackets is one level. -/
theorem HasDepth.group {tokens : List Token} {expr : Expr} {depth : Nat}
    (least : HasDepth tokens expr depth) : HasDepth (groupTokens tokens []) expr (depth + 1) := by
  intro levels
  cases levels with
  | zero => exact ⟨fun alone => absurd alone Alone.not_zero, fun enough => by omega⟩
  | succ levels =>
    have accepted : Alone (depth + levels) tokens expr := (least _).2 (by omega)
    rw [alone_group accepted, least]
    omega

/-- So many pairs of brackets are so many levels. -/
theorem HasDepth.wrapped {tokens : List Token} {expr : Expr} {depth : Nat}
    (least : HasDepth tokens expr depth) (count : Nat) :
    HasDepth (wrappedTokens count tokens) expr (count + depth) := by
  induction count with
  | zero => simpa [wrappedTokens] using least
  | succ count ih =>
    have deeper : count + 1 + depth = count + depth + 1 := by omega
    rw [deeper]
    exact ih.group

namespace Formula

/-- A formula in so many pairs of brackets. -/
def wrapped : Nat → String → String
  | 0, formula => formula
  | count + 1, formula => "(" ++ wrapped count formula ++ ")"

theorem spells_wrapped {formula : String} {tokens : List Token}
    (lexed : tokenize formula = .ok tokens) (count : Nat) :
    Spells (wrapped count formula).toList ((wrappedTokens count tokens).map Token.kind) := by
  induction count with
  | zero => exact spells_of_tokenize lexed
  | succ count ih =>
    obtain ⟨found, inner, same⟩ := ih 0
    have closed := spells_append inner (by simpa using isBoundary_closeParen) (spells_close .nil)
    rw [same] at closed
    simpa [wrapped, wrappedTokens, groupTokens, bare, String.toList_append] using spells_open closed

/-- A formula is refused as its tokens are. -/
theorem compile_eq_error_of_read {formula : String} {tokens : List Token} {fault : Fault}
    (lexed : tokenize formula = .ok tokens) (nonempty : tokens ≠ [])
    (failed : (readSlice formula.toList .entity tokens).result = .error fault) :
    (compile formula).result = .error fault := by
  rw [compile, Traced.result_bind_eq_error, parse, Traced.result_bind_eq_error]
  refine .inl (.inr ⟨tokens, lexed, ?_⟩)
  cases tokens with
  | nil => exact absurd rfl nonempty
  | cons first more => exact failed

/-- A formula is accepted with as many levels as its depth. -/
theorem compile_of_hasDepth {formula : String} {tokens : List Token} {expr : Expr} {depth : Nat}
    (spelled : Spells formula.toList (tokens.map Token.kind)) (nonempty : tokens ≠ [])
    (least : HasDepth tokens expr depth) (fragment : Fragment) :
    (compile formula).result = .ok fragment ↔
      depth ≤ maxNesting ∧ fragment = expr.fragment := by
  rw [compile_of_spells spelled nonempty]
  constructor
  · rintro ⟨found, alone, rfl⟩
    have accepted : Alone (depth + maxNesting) tokens expr := (least _).2 (by omega)
    obtain rfl := alone.more.unique accepted
    exact ⟨(least _).1 alone, rfl⟩
  · rintro ⟨within, rfl⟩
    exact ⟨expr, (least _).2 within, rfl⟩

/-- A formula is refused as nested too deep with fewer levels than its depth. -/
theorem compile_of_hasDepth_lt {formula : String} {tokens : List Token} {expr : Expr} {depth : Nat}
    (spelled : Spells formula.toList (tokens.map Token.kind)) (nonempty : tokens ≠ [])
    (least : HasDepth tokens expr depth) (deep : maxNesting < depth) :
    ∃ position, (compile formula).result = .error (.malformed position .nestedTooDeep) := by
  obtain ⟨found, lexed, foundSome, alike⟩ := exists_alike_of_spells spelled nonempty
  have accepted : Alone (depth + maxNesting) tokens expr := (least _).2 (by omega)
  rcases readWhole_shallow formula.toList alike accepted with read | ⟨position, read⟩
  · -- The levels were enough, so they are no fewer than the depth.
    have success : (compile formula).result = .ok expr.fragment :=
      compile_eq_ok.2 ⟨expr, parse_eq_ok.2 ⟨found, lexed, .inr ⟨foundSome, read⟩⟩, rfl⟩
    have within := ((compile_of_hasDepth spelled nonempty least _).1 success).1
    omega
  · exact ⟨position, compile_eq_error_of_read lexed foundSome read⟩

/-- Brackets around an accepted formula change nothing but its depth: it is accepted with the same
code as long as the levels last, and then it is refused as nested too deep. -/
theorem compile_wrapped {formula : String} {tokens : List Token} {fragment : Fragment}
    (lexed : tokenize formula = .ok tokens) (nonempty : tokens ≠ [])
    (success : (compile formula).result = .ok fragment) :
    ∃ depth, 1 ≤ depth ∧ depth ≤ maxNesting ∧ ∀ count,
      (∀ other, (compile (wrapped count formula)).result = .ok other ↔
        count + depth ≤ maxNesting ∧ other = fragment) ∧
      (maxNesting < count + depth → ∃ position,
        (compile (wrapped count formula)).result =
          .error (.malformed position .nestedTooDeep)) := by
  obtain ⟨expr, alone, rfl⟩ := (compile_of_spells (spells_of_tokenize lexed) nonempty).1 success
  obtain ⟨depth, positive, within, least⟩ := alone.exists_depth
  refine ⟨depth, positive, within, fun count => ?_⟩
  have spelled := spells_wrapped lexed count
  have wrappedSome := wrappedTokens_ne_nil nonempty count
  exact ⟨compile_of_hasDepth spelled wrappedSome (least.wrapped count),
    compile_of_hasDepth_lt spelled wrappedSome (least.wrapped count)⟩

/-- A name alone takes one level, so all the others are left for brackets. -/
theorem compile_wrapped_name :
    (compile (wrapped 63 "x")).result = .ok (.plain "self.x") ∧
      ∃ position,
        (compile (wrapped 64 "x")).result = .error (.malformed position .nestedTooDeep) := by
  have evaluated : (compile (wrapped 63 "x")).result.toOption = some (.plain "self.x") := by
    decide +kernel
  have lexed : tokenize "x" = .ok [⟨.ident "x", 0, 1⟩] := by cbv
  have success : (compile "x").result = .ok (.plain "self.x") := by cbv
  obtain ⟨depth, positive, -, holds⟩ := compile_wrapped lexed (by simp) success
  have deep : maxNesting < 64 + depth := by
    rw [maxNesting]
    omega
  exact ⟨eq_ok_of_toOption evaluated, (holds 64).2 deep⟩

end Formula

end Formulary
