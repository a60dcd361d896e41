import Formulary.Proofs.Splits

set_option autoImplicit false

namespace Formulary

/-- The depth behind tokens, with one count for round and square brackets. There is none if a
bracket closes where none is open. -/
def depthAfter? (depth : Nat) : List Token → Option Nat
  | [] => some depth
  | token :: rest =>
    if token.kind.isOpening then depthAfter? (depth + 1) rest
    else if token.kind.isClosing then
      if depth = 0 then none else depthAfter? (depth - 1) rest
    else depthAfter? depth rest

/-- Every bracket that closes has an open one before it, and none is left open. -/
def Paired (tokens : List Token) : Prop := depthAfter? 0 tokens = some 0

instance (tokens : List Token) : Decidable (Paired tokens) :=
  inferInstanceAs (Decidable (depthAfter? 0 tokens = some 0))

/-- Brackets of different kinds pair. -/
example : Paired [⟨.openParen, 0, 1⟩, ⟨.closeBracket, 1, 2⟩] := by decide

theorem depthAfter?_append (depth : Nat) (first second : List Token) :
    depthAfter? depth (first ++ second) =
      (depthAfter? depth first).bind (depthAfter? · second) := by
  fun_induction depthAfter? depth first with
  | case1 => rfl
  | case2 depth token rest opens ih => rw [List.cons_append, depthAfter?, if_pos opens, ih]
  | case3 token rest opens closes =>
    rw [List.cons_append, depthAfter?, if_neg opens, if_pos closes]
    rfl
  | case4 depth token rest opens closes inside ih =>
    rw [List.cons_append, depthAfter?, if_neg opens, if_pos closes, if_neg inside, ih]
  | case5 depth token rest opens closes ih =>
    rw [List.cons_append, depthAfter?, if_neg opens, if_neg closes, ih]

theorem depthAfter?_cons {token : Token} (inner : token.kind.isInner true = true) (depth : Nat)
    (tokens : List Token) : depthAfter? depth (token :: tokens) = depthAfter? depth tokens := by
  simp only [Kind.isInner, Bool.and_eq_true, Bool.not_eq_true'] at inner
  rw [depthAfter?, inner.1.1, inner.1.2]
  rfl

namespace Paired

variable {token : Token} {first second tokens : List Token}

theorem append_iff (paired : Paired first) : Paired (first ++ second) ↔ Paired second := by
  have first : depthAfter? 0 first = some 0 := paired
  rw [Paired, depthAfter?_append, first]
  rfl

theorem cons_iff (inner : token.kind.isInner true = true) :
    Paired (token :: tokens) ↔ Paired tokens := by
  rw [Paired, depthAfter?_cons inner]
  rfl

theorem append_cons (paired : Paired first) (inner : token.kind.isInner true = true)
    (behind : Paired second) : Paired (first ++ token :: second) :=
  paired.append_iff.2 ((cons_iff inner).2 behind)

end Paired

/-- No token that is selected stands outside all brackets. -/
def Without (selects : Token → Bool) (tokens : List Token) : Prop :=
  ∀ before token after, tokens = before ++ token :: after → Paired before → selects token = false

section TopLevel

variable {selects : Token → Bool} {first rest tokens : List Token} {depth after : Nat}

theorem topLevelFrom_add (offset index : Nat) :
    topLevelFrom selects depth (offset + index) tokens =
      (topLevelFrom selects depth index tokens).map (offset + ·) := by
  fun_induction topLevelFrom selects depth index tokens with
  | case1 => rfl
  | case2 depth index token rest opens ih => rw [topLevelFrom, if_pos opens, ← ih, Nat.add_assoc]
  | case3 depth index token rest opens closes ih =>
    rw [topLevelFrom, if_neg opens, if_pos closes, ← ih, Nat.add_assoc]
  | case4 depth index token rest opens closes here ih =>
    rw [topLevelFrom, if_neg opens, if_neg closes, if_pos here, List.map_cons, ← ih,
      Nat.add_assoc]
  | case5 depth index token rest opens closes other ih =>
    rw [topLevelFrom, if_neg opens, if_neg closes, if_neg other, ← ih, Nat.add_assoc]

theorem topLevelFrom_append (reached : depthAfter? depth first = some after) (index : Nat) :
    topLevelFrom selects depth index (first ++ rest) =
      topLevelFrom selects depth index first ++
        topLevelFrom selects after (index + first.length) rest := by
  have length (index : Nat) (token : Token) (first : List Token) :
      index + (token :: first).length = index + 1 + first.length := by
    rw [List.length_cons]
    omega
  fun_induction depthAfter? depth first generalizing index with
  | case1 =>
    cases reached
    rfl
  | case2 depth token first opens ih =>
    rw [List.cons_append, topLevelFrom, if_pos opens, topLevelFrom, if_pos opens, length]
    exact ih reached _
  | case3 => cases reached
  | case4 depth token first opens closes inside ih =>
    rw [List.cons_append, topLevelFrom, if_neg opens, if_pos closes, topLevelFrom, if_neg opens,
      if_pos closes, length]
    exact ih reached _
  | case5 depth token first opens closes ih =>
    rw [List.cons_append, topLevelFrom, if_neg opens, if_neg closes, topLevelFrom, if_neg opens,
      if_neg closes, length]
    split
    · rename_i here
      obtain ⟨rfl, -⟩ := here
      rw [ih reached, List.cons_append]
    · exact ih reached _

theorem topLevel_append (paired : Paired first) :
    topLevel selects (first ++ rest) =
      topLevel selects first ++ (topLevel selects rest).map (first.length + ·) := by
  rw [topLevel, topLevelFrom_append paired, Nat.zero_add, ← Nat.add_zero first.length,
    topLevelFrom_add]
  rfl

theorem topLevel_cons {token : Token} (inner : token.kind.isInner true = true) :
    topLevel selects (token :: rest) =
      (if selects token then [0] else []) ++ (topLevel selects rest).map (1 + ·) := by
  simp only [Kind.isInner, Bool.and_eq_true, Bool.not_eq_true'] at inner
  simp only [topLevel, topLevelFrom, inner.1.1, inner.1.2, Bool.false_eq_true, ↓reduceIte, true_and,
    Nat.zero_add]
  rw [show 1 = 1 + 0 from rfl, topLevelFrom_add]
  split <;> rfl

/-- The list up to the first token that is found outside brackets. -/
private theorem cut_of_topLevelFrom {index final place : Nat} {more : List Nat}
    (within : depthAfter? depth tokens = some final)
    (found : topLevelFrom selects depth index tokens = place :: more) :
    ∃ before token after, tokens = before ++ token :: after ∧
      depthAfter? depth before = some 0 ∧ token.kind.isInner true = true ∧
      selects token = true ∧ place = index + before.length ∧
      topLevelFrom selects depth index before = [] ∧
      more = topLevelFrom selects 0 (place + 1) after := by
  fun_induction topLevelFrom selects depth index tokens with
  | case1 => cases found
  | case2 depth index token rest opens ih =>
    rw [depthAfter?, if_pos opens] at within
    obtain ⟨before, other, after, rfl, reached, inner, here, rfl, unselected, others⟩ :=
      ih within found
    refine ⟨token :: before, other, after, rfl, ?_, inner, here, ?_, ?_, others⟩
    · rw [depthAfter?, if_pos opens, reached]
    · rw [List.length_cons]
      omega
    · rw [topLevelFrom, if_pos opens, unselected]
  | case3 depth index token rest opens closes ih =>
    rw [depthAfter?, if_neg opens, if_pos closes] at within
    split at within
    · cases within
    · rename_i inside
      obtain ⟨before, other, after, rfl, reached, inner, here, rfl, unselected, others⟩ :=
        ih within found
      refine ⟨token :: before, other, after, rfl, ?_, inner, here, ?_, ?_, others⟩
      · rw [depthAfter?, if_neg opens, if_pos closes, if_neg inside, reached]
      · rw [List.length_cons]
        omega
      · rw [topLevelFrom, if_neg opens, if_pos closes, unselected]
  | case4 depth index token rest opens closes here ih =>
    cases found
    obtain ⟨rfl, selected⟩ := here
    exact ⟨[], token, rest, rfl, rfl, by simp [Kind.isInner, opens, closes], selected, rfl, rfl,
      rfl⟩
  | case5 depth index token rest opens closes other ih =>
    rw [depthAfter?, if_neg opens, if_neg closes] at within
    obtain ⟨before, next, after, rfl, reached, inner, here, rfl, unselected, others⟩ :=
      ih within found
    refine ⟨token :: before, next, after, rfl, ?_, inner, here, ?_, ?_, others⟩
    · rw [depthAfter?, if_neg opens, if_neg closes, reached]
    · rw [List.length_cons]
      omega
    · rw [topLevelFrom, if_neg opens, if_neg closes, if_neg other, unselected]

/-- The first place that is found cuts the list outside all brackets, and the other places are found
behind it. -/
theorem cut_of_topLevel {place : Nat} {more : List Nat} (paired : Paired tokens)
    (found : topLevel selects tokens = place :: more) :
    ∃ before token after, tokens = before ++ token :: after ∧ before.length = place ∧
      selects token = true ∧ token.kind.isInner true = true ∧ Paired before ∧ Paired after ∧
      topLevel selects before = [] ∧
      more = (topLevel selects after).map (place + 1 + ·) := by
  obtain ⟨before, token, after, rfl, reached, inner, here, rfl, unselected, others⟩ :=
    cut_of_topLevelFrom paired found
  have behind : Paired after :=
    (Paired.cons_iff inner).1 ((Paired.append_iff reached).1 paired)
  refine ⟨before, token, after, rfl, (Nat.zero_add _).symm, here, inner, reached, behind,
    unselected, ?_⟩
  rw [others, ← Nat.add_zero (0 + before.length + 1), topLevelFrom_add]
  rfl

theorem mem_topLevel {before behind : List Token} {token : Token} (outside : Paired before)
    (inner : token.kind.isInner true = true) (selected : selects token = true) :
    before.length ∈ topLevel selects (before ++ token :: behind) := by
  rw [topLevel_append outside, topLevel_cons inner, selected]
  simp

theorem without_iff (paired : Paired tokens)
    (apart : ∀ token, selects token = true → token.kind.isInner true = true) :
    Without selects tokens ↔ topLevel selects tokens = [] := by
  constructor
  · intro without
    cases found : topLevel selects tokens with
    | nil => rfl
    | cons place more =>
      obtain ⟨before, token, after, rfl, -, here, -, outside, -⟩ := cut_of_topLevel paired found
      rw [without before token after rfl outside] at here
      cases here
  · rintro unselected before token after rfl outside
    cases selected : selects token with
    | false => rfl
    | true =>
      have found := @mem_topLevel _ _ after _ outside (apart token selected) selected
      rw [unselected] at found
      cases found

end TopLevel

/-- Tokens between two commas of an argument list. -/
structure IsArgument (tokens : List Token) : Prop where
  paired : Paired tokens
  single : Without Token.isComma tokens
  present : tokens ≠ []

/-- The list is these arguments with commas between them. -/
structure IsArguments (parts : List (List Token)) (tokens : List Token) : Prop where
  joined : Joined parts tokens
  each : ∀ part ∈ parts, IsArgument part

theorem IsArguments.paired {parts : List (List Token)} {tokens : List Token}
    (arguments : IsArguments parts tokens) : ∀ part ∈ parts, Paired part :=
  fun part member => (arguments.each part member).paired

theorem Token.isInner_of_isComma {token : Token} (comma : token.isComma = true) :
    token.kind.isInner true = true := by
  have kind : token.kind = .comma := by simpa [isComma] using comma
  rw [kind]
  rfl

private theorem isArgument_of {tokens : List Token} (paired : Paired tokens)
    (single : topLevel Token.isComma tokens = []) (present : tokens ≠ []) : IsArgument tokens :=
  ⟨paired, (without_iff paired fun _ => Token.isInner_of_isComma).2 single, present⟩

/-- The tokens of the first argument close the brackets that were open, and no comma among them
stands outside brackets; the other arguments are whole. -/
private theorem splitFrom_eq_ok {depth last : Nat} {started : Bool} {tokens first : List Token}
    {others : List (List Token)}
    (found : splitFrom depth started last tokens = .ok (first, others)) :
    depthAfter? depth first = some 0 ∧
      (∀ index, topLevelFrom Token.isComma depth index first = []) ∧
      (started = false → first ≠ []) ∧ ∀ part ∈ others, IsArgument part := by
  fun_induction splitFrom depth started last tokens generalizing first others with
  | case1 => cases found
  | case2 depth last closed =>
    cases found
    obtain rfl : depth = 0 := by simpa using closed
    exact ⟨rfl, fun _ => rfl, by simp, by simp⟩
  | case3 => cases found
  | case4 depth started last token rest opens ih =>
    obtain ⟨part, inner, rfl⟩ := consFirst_eq_ok found
    obtain ⟨reached, single, -, each⟩ := ih inner
    refine ⟨?_, fun index => ?_, by simp, each⟩
    · rw [depthAfter?, if_pos opens, reached]
    · rw [topLevelFrom, if_pos opens, single]
  | case5 => cases found
  | case6 started last token rest opens closes depth ih =>
    obtain ⟨part, inner, rfl⟩ := consFirst_eq_ok found
    obtain ⟨reached, single, -, each⟩ := ih inner
    refine ⟨?_, fun index => ?_, by simp, each⟩
    · rw [depthAfter?, if_neg opens, if_pos closes, if_neg (Nat.succ_ne_zero depth)]
      exact reached
    · rw [topLevelFrom, if_neg opens, if_pos closes]
      exact single _
  | case7 depth last token rest opens closes comma ih =>
    obtain ⟨-, rfl⟩ := comma
    cases parts : splitFrom 0 false token.stop rest with
    | error fault =>
      rw [parts] at found
      cases found
    | ok pair =>
      rw [parts] at found
      cases found
      obtain ⟨reached, single, present, each⟩ := ih parts
      have first := isArgument_of reached (single 0) (present rfl)
      exact ⟨rfl, fun _ => rfl, by simp, List.forall_mem_cons.2 ⟨first, each⟩⟩
  | case8 => cases found
  | case9 depth started last token rest opens closes comma ih =>
    obtain ⟨part, inner, rfl⟩ := consFirst_eq_ok found
    obtain ⟨reached, single, -, each⟩ := ih inner
    refine ⟨?_, fun index => ?_, by simp, each⟩
    · rw [depthAfter?, if_neg opens, if_neg closes, reached]
    · rw [topLevelFrom, if_neg opens, if_neg closes, if_neg (fun here => comma here.symm), single]

/-- An argument is passed, and what stands behind it is cut as before. -/
private theorem splitFrom_append {depth after last index : Nat} {started : Bool}
    {tokens rest first : List Token} {others : List (List Token)}
    (reached : depthAfter? depth tokens = some after)
    (single : topLevelFrom Token.isComma depth index tokens = [])
    (present : started = true ∨ tokens ≠ [])
    (behind : ∀ last, splitFrom after true last rest = .ok (first, others)) :
    splitFrom depth started last (tokens ++ rest) = .ok (tokens ++ first, others) := by
  fun_induction depthAfter? depth tokens generalizing started last index with
  | case1 =>
    cases reached
    obtain rfl : started = true := by simpa using present
    exact behind last
  | case2 depth token tokens opens ih =>
    rw [topLevelFrom, if_pos opens] at single
    rw [List.cons_append, splitFrom.eq_def]
    simp only [opens, ↓reduceIte]
    rw [ih reached single (.inl rfl)]
    rfl
  | case3 => cases reached
  | case4 depth token tokens opens closes inside ih =>
    rw [topLevelFrom, if_neg opens, if_pos closes] at single
    obtain ⟨depth, rfl⟩ := Nat.exists_eq_succ_of_ne_zero inside
    simp only [Nat.succ_eq_add_one, Nat.add_sub_cancel] at reached single ih
    rw [List.cons_append, splitFrom.eq_def]
    simp only [opens, closes, Bool.false_eq_true, ↓reduceIte]
    rw [ih reached single (.inl rfl)]
    rfl
  | case5 depth token tokens opens closes ih =>
    rw [topLevelFrom, if_neg opens, if_neg closes] at single
    split at single
    · cases single
    · rename_i comma
      rw [List.cons_append, splitFrom.eq_def]
      simp only [opens, closes, Bool.false_eq_true, ↓reduceIte]
      rw [if_neg fun here => comma here.symm, ih reached single (.inl rfl)]
      rfl

private theorem splitFrom_argument {part rest first : List Token} {others : List (List Token)}
    (argument : IsArgument part)
    (behind : ∀ last, splitFrom 0 true last rest = .ok (first, others)) (last : Nat) :
    splitFrom 0 false last (part ++ rest) = .ok (part ++ first, others) := by
  obtain ⟨paired, single, present⟩ := argument
  rw [without_iff paired fun _ => Token.isInner_of_isComma] at single
  exact splitFrom_append paired single (.inr present) behind

/-- Arguments with commas between them are told apart at these. -/
private theorem splitFrom_arguments {part tokens : List Token} {parts : List (List Token)}
    (joined : Joined (part :: parts) tokens)
    (each : ∀ argument ∈ part :: parts, IsArgument argument) (last : Nat) :
    splitFrom 0 false last tokens = .ok (part, parts) := by
  induction parts generalizing part tokens last with
  | nil =>
    cases joined
    have alone := @splitFrom_argument part [] [] [] (each part (by simp)) (fun _ => rfl) last
    simpa using alone
  | cons next parts ih =>
    cases joined with
    | @more _ _ _ comma rest kind others =>
      have inner := ih others (fun argument member => each argument (.tail _ member))
      have behind (last : Nat) :
          splitFrom 0 true last (comma :: rest) = .ok ([], next :: parts) := by
        simp [splitFrom, kind, Kind.isOpening, Kind.isClosing, Token.isComma, inner, Except.map]
      have whole := splitFrom_argument (each part (by simp)) behind last
      simpa using whole

/-- A list is cut into arguments if and only if it is made of them, so in one way at most. -/
theorem splitArguments_eq_ok {tokens : List Token} {parts : List (List Token)} :
    splitArguments tokens = .ok parts ↔ IsArguments parts tokens := by
  constructor
  · intro found
    refine ⟨splitArguments_joined found, ?_⟩
    cases tokens with
    | nil =>
      cases found
      simp
    | cons token rest =>
      rw [splitArguments] at found
      · cases cut : splitFrom 0 false 0 (token :: rest) with
        | error fault =>
          rw [cut] at found
          cases found
        | ok pair =>
          rw [cut] at found
          cases found
          obtain ⟨reached, single, present, each⟩ := splitFrom_eq_ok cut
          exact List.forall_mem_cons.2 ⟨isArgument_of reached (single 0) (present rfl), each⟩
      · simp
  · rintro ⟨joined, each⟩
    cases parts with
    | nil =>
      cases joined
      rfl
    | cons part parts =>
      have present : part ≠ [] := (each part (by simp)).present
      have nonempty : tokens ≠ [] := by cases joined <;> simp [present]
      rw [splitArguments, splitFrom_arguments joined each]
      · rfl
      · exact nonempty

section Closed

variable {opening closing : Token} {inside tokens : List Token} {commas : Bool}

private theorem depthAfter?_bracketed (opens : opening.kind.isOpening = true)
    (closes : closing.kind.isClosing = true) (apart : closing.kind.isOpening = false) (depth : Nat)
    (within : depthAfter? (depth + 1) inside = some (depth + 1)) :
    depthAfter? depth (opening :: (inside ++ closing :: tokens)) = depthAfter? depth tokens := by
  rw [depthAfter?, if_pos opens, depthAfter?_append, within, Option.bind_some, depthAfter?, apart]
  simp [closes]

theorem Closed.depthAfter?_eq (closed : Closed commas tokens) (depth : Nat) :
    depthAfter? depth tokens = some depth := by
  induction closed generalizing depth with
  | nil => rfl
  | token inner others ih =>
    simp only [Kind.isInner, Bool.and_eq_true] at inner
    rw [depthAfter?_cons (by simp [Kind.isInner, inner.1]), ih]
  | brackets opens closes within others ihWithin ihOthers =>
    rw [depthAfter?_bracketed (by rw [opens]; rfl) (by rw [closes]; rfl) (by rw [closes]; rfl)
      depth (ihWithin _), ihOthers]
  | square opens closes within others ihWithin ihOthers =>
    rw [depthAfter?_bracketed (by rw [opens]; rfl) (by rw [closes]; rfl) (by rw [closes]; rfl)
      depth (ihWithin _), ihOthers]

theorem topLevelFrom_bracketed {selects : Token → Bool} (opens : opening.kind.isOpening = true)
    (closes : closing.kind.isClosing = true) (apart : closing.kind.isOpening = false)
    (depth index : Nat) (within : depthAfter? (depth + 1) inside = some (depth + 1))
    (nothing : ∀ index, topLevelFrom selects (depth + 1) index inside = [])
    (behind : ∀ index, topLevelFrom selects depth index tokens = []) :
    topLevelFrom selects depth index (opening :: (inside ++ closing :: tokens)) = [] := by
  rw [topLevelFrom, if_pos opens, topLevelFrom_append within, nothing, topLevelFrom, apart]
  simp [closes, behind]

/-- Inside brackets nothing stands outside all brackets. -/
theorem Closed.topLevelFrom_succ (closed : Closed commas tokens) (selects : Token → Bool)
    (depth index : Nat) : topLevelFrom selects (depth + 1) index tokens = [] := by
  induction closed generalizing depth index with
  | nil => rfl
  | token inner others ih =>
    simp only [Kind.isInner, Bool.and_eq_true, Bool.not_eq_true'] at inner
    rw [topLevelFrom, inner.1.1, inner.1.2, if_neg (by simp)]
    exact ih depth _
  | brackets opens closes within others ihWithin ihOthers =>
    exact topLevelFrom_bracketed (by rw [opens]; rfl) (by rw [closes]; rfl) (by rw [closes]; rfl)
      _ index (within.depthAfter?_eq _) (fun _ => ihWithin _ _) fun _ => ihOthers depth _
  | square opens closes within others ihWithin ihOthers =>
    exact topLevelFrom_bracketed (by rw [opens]; rfl) (by rw [closes]; rfl) (by rw [closes]; rfl)
      _ index (within.depthAfter?_eq _) (fun _ => ihWithin _ _) fun _ => ihOthers depth _

/-- Tokens that close have no comma outside brackets, unless they may have. -/
theorem Closed.topLevelFrom_eq_nil (closed : Closed commas tokens) (depth index : Nat)
    (inside : commas = true → depth ≠ 0) : topLevelFrom Token.isComma depth index tokens = [] := by
  induction closed generalizing depth index with
  | nil => rfl
  | @token commas token tokens inner others ih =>
    simp only [Kind.isInner, Bool.and_eq_true, Bool.not_eq_true', Bool.or_eq_true, bne_iff_ne]
      at inner
    obtain ⟨⟨opens, closes⟩, comma⟩ := inner
    have apart : ¬ (depth = 0 ∧ token.isComma = true) := by
      rintro ⟨rfl, isComma⟩
      rcases comma with allowed | other
      · exact inside allowed rfl
      · exact other (by simpa [Token.isComma] using isComma)
    rw [topLevelFrom, opens, closes, if_neg apart]
    exact ih depth _ inside
  | brackets opens closes within others ihWithin ihOthers =>
    exact topLevelFrom_bracketed (by rw [opens]; rfl) (by rw [closes]; rfl) (by rw [closes]; rfl)
      depth index (within.depthAfter?_eq _) (fun _ => within.topLevelFrom_succ _ depth _)
      fun _ => ihOthers depth _ inside
  | square opens closes within others ihWithin ihOthers =>
    exact topLevelFrom_bracketed (by rw [opens]; rfl) (by rw [closes]; rfl) (by rw [closes]; rfl)
      depth index (within.depthAfter?_eq _) (fun _ => within.topLevelFrom_succ _ depth _)
      fun _ => ihOthers depth _ inside

theorem Closed.isArgument (closed : Closed false tokens) (present : tokens ≠ []) :
    IsArgument tokens :=
  isArgument_of (closed.depthAfter?_eq 0) (closed.topLevelFrom_eq_nil 0 0 nofun) present

end Closed

/-- Two arguments that close are told apart at the comma between them. -/
theorem splitArguments_pair {first second : List Token} {comma : Token}
    (before : Closed false first) (behind : Closed false second) (someFirst : first ≠ [])
    (someSecond : second ≠ []) (kind : comma.kind = .comma) :
    splitArguments (first ++ comma :: second) = .ok [first, second] := by
  refine splitArguments_eq_ok.2 ⟨.more kind .one, ?_⟩
  simp [before.isArgument someFirst, behind.isArgument someSecond]

theorem splitArguments_triple {first second third : List Token} {comma mark : Token}
    (before : Closed false first) (middle : Closed false second) (behind : Closed false third)
    (someFirst : first ≠ []) (someSecond : second ≠ []) (someThird : third ≠ [])
    (kind : comma.kind = .comma) (separates : mark.kind = .comma) :
    splitArguments (first ++ comma :: (second ++ mark :: third)) = .ok [first, second, third] := by
  refine splitArguments_eq_ok.2 ⟨.more kind (.more separates .one), ?_⟩
  simp [before.isArgument someFirst, middle.isArgument someSecond, behind.isArgument someThird]

end Formulary
