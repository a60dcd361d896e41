import Mathlib.Data.List.Forall2
import Formulary.Proofs.Splits

set_option autoImplicit false

namespace Formulary

namespace Fault

/-- What a fault is about, without its texts and positions. -/
inductive Variant where
  | unknownFunction
  | arityMismatch
  | keywordArgument
  | aggregationClause
  | multiDotReference
  | joinCondition
  | malformed
  deriving DecidableEq, Repr

def variant : Fault → Variant
  | unknownFunction _ => .unknownFunction
  | arityMismatch _ _ _ _ => .arityMismatch
  | keywordArgument _ _ => .keywordArgument
  | aggregationClause _ _ => .aggregationClause
  | multiDotReference _ => .multiDotReference
  | joinCondition _ => .joinCondition
  | malformed _ _ => .malformed

end Fault

/-- How a second computation may end when the first one fails. It may always fail with a fault of
the same variant; with `none` it may also succeed, and then it may end in any way. -/
structure Tolerance where
  allows : Fault → Option Fault → Prop
  variant : ∀ {fault other : Fault}, fault.variant = other.variant → allows fault (some other)
  rescue : ∀ {fault : Fault} (other : Option Fault), allows fault none → allows fault other

namespace Tolerance

/-- The second computation fails with the first one. -/
def strict : Tolerance where
  allows fault other := other.map Fault.variant = some fault.variant
  variant same := congrArg some same.symm
  rescue _ none := nomatch none

/-- Nothing is asked of the second computation when the first one fails. -/
def lenient : Tolerance where
  allows _ _ := True
  variant _ := trivial
  rescue _ _ := trivial

end Tolerance

/-- The values of two computations are related, or the first fails and the second ends as it may. -/
inductive Follows (tolerance : Tolerance) {α β : Type} (related : α → β → Prop) :
    Except Fault α → Except Fault β → Prop where
  | ok {first : α} {second : β} (values : related first second) :
      Follows tolerance related (.ok first) (.ok second)
  | error {fault other : Fault} (allowed : tolerance.allows fault (some other)) :
      Follows tolerance related (.error fault) (.error other)
  | rescued {fault : Fault} {second : β} (allowed : tolerance.allows fault none) :
      Follows tolerance related (.error fault) (.ok second)

section Follows

variable {tolerance : Tolerance} {α β γ δ : Type} {related : α → β → Prop} {kept : γ → δ → Prop}

theorem Follows.variant {fault other : Fault} (same : fault.variant = other.variant) :
    Follows tolerance related (.error fault) (.error other) := .error (tolerance.variant same)

/-- For computations that branch on others and fail with them. -/
theorem Follows.branch {first : Except Fault α} {second : Except Fault β}
    {final : Except Fault γ} {again : Except Fault δ}
    (before : Follows tolerance related first second)
    (failed : ∀ fault, first = .error fault → final = .error fault)
    (failedAgain : ∀ fault, second = .error fault → again = .error fault)
    (behind : ∀ a b, first = .ok a → second = .ok b → related a b →
      Follows tolerance kept final again) : Follows tolerance kept final again := by
  cases before with
  | ok values => exact behind _ _ rfl rfl values
  | error allowed =>
    rw [failed _ rfl, failedAgain _ rfl]
    exact .error allowed
  | rescued allowed =>
    rw [failed _ rfl]
    cases again with
    | ok _ => exact .rescued allowed
    | error other => exact .error (tolerance.rescue (some other) allowed)

theorem Follows.bind {first : Except Fault α} {second : Except Fault β}
    {next : α → Except Fault γ} {after : β → Except Fault δ}
    (before : Follows tolerance related first second)
    (behind : ∀ a b, related a b → Follows tolerance kept (next a) (after b)) :
    Follows tolerance kept (first >>= next) (second >>= after) := by
  apply before.branch
  · rintro fault rfl
    rfl
  · rintro fault rfl
    rfl
  · rintro a b rfl rfl values
    exact behind a b values

theorem Follows.eq_ok_iff {first second : Except Fault α} {value : α}
    (follows : Follows .strict Eq first second) : first = .ok value ↔ second = .ok value := by
  cases follows with
  | ok same => rw [same]
  | error _ => simp
  | rescued allowed => cases allowed

theorem Follows.map {first : Except Fault α} {second : Except Fault β} {change : α → γ}
    {other : β → δ} (before : Follows tolerance related first second)
    (changed : ∀ a b, related a b → kept (change a) (other b)) :
    Follows tolerance kept (first.map change) (second.map other) := by
  cases before with
  | ok values => exact .ok (changed _ _ values)
  | error allowed => exact .error allowed
  | rescued allowed => exact .rescued allowed

theorem Traced.follows_bind {first : Traced α} {second : Traced β} {next : α → Traced γ}
    {after : β → Traced δ} (before : Follows tolerance related first.result second.result)
    (behind : ∀ a b, related a b → Follows tolerance kept (next a).result (after b).result) :
    Follows tolerance kept (first >>= next).result (second >>= after).result := by
  rw [result_bind, result_bind]
  exact before.bind behind

end Follows

namespace Kind

/-- The kind of a token as it is compared between two formulas: an arrow is a dot, and the name of
a call is in capitals. -/
def canonical (called : Bool) : Kind → Kind
  | ident name => .ident (if called then name.toUpper else name)
  | arrow => .dot
  | kind => kind

/-- The kind without its name, an arrow being a dot. -/
def shape : Kind → Kind
  | ident _ => .ident ""
  | arrow => .dot
  | kind => kind

/-- A test that sees neither names nor which member mark it looks at. -/
def Blind {γ : Sort _} (test : Kind → γ) : Prop := ∀ kind, test kind.shape = test kind

theorem Blind.congr {γ : Sort _} {test : Kind → γ} (blind : Blind test) {kind other : Kind}
    (same : kind.shape = other.shape) : test kind = test other := by
  rw [← blind kind, same, blind other]

theorem blind_isOpening : Blind isOpening := by
  intro kind
  cases kind <;> rfl

theorem blind_isClosing : Blind isClosing := by
  intro kind
  cases kind <;> rfl

theorem blind_isMemberMark : Blind isMemberMark := by
  intro kind
  cases kind <;> rfl

/-- Neither a name nor a member mark. -/
def isFixed (kind : Kind) : Bool := kind.name?.isNone && !kind.isMemberMark

theorem blind_eq (wanted : Kind) (fixed : wanted.isFixed = true) : Blind (· = wanted) := by
  intro kind
  cases kind with
  | ident name =>
    apply propext
    constructor <;> rintro rfl <;> cases fixed
  | arrow =>
    apply propext
    constructor <;> rintro rfl <;> cases fixed
  | _ => rfl

theorem blind_beq (wanted : Kind) (fixed : wanted.isFixed = true) : Blind (· == wanted) := by
  intro kind
  rw [Bool.eq_iff_iff, beq_iff_eq, beq_iff_eq]
  exact Iff.of_eq (blind_eq wanted fixed kind)

theorem name?_eq_some_iff {kind : Kind} {name : String} :
    kind.name? = some name ↔ kind = .ident name := by
  cases kind <;> simp [name?]

theorem shape_canonical (called : Bool) (kind : Kind) :
    (kind.canonical called).shape = kind.shape := by
  cases kind <;> rfl

theorem name?_canonical (called : Bool) (kind : Kind) :
    (kind.canonical called).name? = kind.name?.map fun name =>
      if called then name.toUpper else name := by
  cases kind <;> rfl

end Kind

/-- Whether a round bracket opens next. -/
def opensNext : List Token → Bool
  | [] => false
  | token :: _ => token.kind == .openParen

/-- The kinds of tokens as they are compared between two formulas. -/
def spelling : List Token → List Kind
  | [] => []
  | token :: rest => token.kind.canonical (opensNext rest) :: spelling rest

/-- The names of two tokens are the same, or both name a call and differ in case only. -/
def SameName (called : Bool) (first second : Token) : Prop :=
  first.kind.name? = second.kind.name? ∨
    (called = true ∧ first.kind.name?.map String.toUpper = second.kind.name?.map String.toUpper)

namespace SameName

variable {called : Bool} {first second : Token}

theorem name?_eq_none (same : SameName called first second) (unnamed : first.kind.name? = none) :
    second.kind.name? = none := by
  rcases same with same | ⟨-, same⟩
  · rw [← same, unnamed]
  · rw [unnamed] at same
    exact Option.map_eq_none_iff.1 same.symm

theorem name?_eq_some {name : String} (same : SameName called first second)
    (named : first.kind.name? = some name) :
    ∃ other, second.kind.name? = some other ∧
      (name = other ∨ (called = true ∧ name.toUpper = other.toUpper)) := by
  rcases same with same | ⟨isCalled, same⟩
  · exact ⟨name, by rw [← same, named], .inl rfl⟩
  · rw [named] at same
    obtain ⟨other, again, upper⟩ := Option.map_eq_some_iff.1 same.symm
    exact ⟨other, again, .inr ⟨isCalled, upper.symm⟩⟩

end SameName

/-- Lists of tokens that differ in layout and spelling only. -/
inductive Alike : List Token → List Token → Prop where
  | nil : Alike [] []
  | cons {first second : Token} {tokens others : List Token}
      (shape : first.kind.shape = second.kind.shape)
      (names : SameName (opensNext tokens) first second) (rest : Alike tokens others) :
      Alike (first :: tokens) (second :: others)

namespace Alike

variable {tokens others : List Token}

/-- Positions do not matter. -/
theorem of_kinds (same : tokens.map Token.kind = others.map Token.kind) : Alike tokens others := by
  induction tokens generalizing others with
  | nil =>
    cases others with
    | nil => exact .nil
    | cons => cases same
  | cons token tokens ih =>
    cases others with
    | nil => cases same
    | cons other others =>
      obtain ⟨kind, rest⟩ := List.cons.inj same
      exact .cons (by rw [kind]) (.inl (by rw [kind])) (ih rest)

protected theorem refl (tokens : List Token) : Alike tokens tokens := .of_kinds rfl

theorem opensNext_eq (alike : Alike tokens others) :
    opensNext tokens = opensNext others := by
  cases alike with
  | nil => rfl
  | cons shape _ _ => exact (Kind.blind_beq .openParen rfl).congr shape

protected theorem symm (alike : Alike tokens others) : Alike others tokens := by
  induction alike with
  | nil => exact .nil
  | cons shape names rest ih =>
    refine .cons shape.symm ?_ ih
    rw [← rest.opensNext_eq]
    rcases names with same | ⟨called, same⟩
    · exact .inl same.symm
    · exact .inr ⟨called, same.symm⟩

theorem length_eq (alike : Alike tokens others) : tokens.length = others.length := by
  induction alike with
  | nil => rfl
  | cons _ _ _ ih => exact congrArg (· + 1) ih

theorem eq_nil_iff (alike : Alike tokens others) : tokens = [] ↔ others = [] := by
  cases alike with
  | nil => simp
  | cons => simp

end Alike

theorem alike_of_spelling {tokens others : List Token} (same : spelling tokens = spelling others) :
    Alike tokens others := by
  induction tokens generalizing others with
  | nil =>
    cases others with
    | nil => exact .nil
    | cons => cases same
  | cons first tokens ih =>
    cases others with
    | nil => cases same
    | cons second others =>
      obtain ⟨heads, rest⟩ := List.cons.inj same
      have alike := ih rest
      rw [← alike.opensNext_eq] at heads
      have shapes := congrArg Kind.shape heads
      have names := congrArg Kind.name? heads
      rw [Kind.shape_canonical, Kind.shape_canonical] at shapes
      rw [Kind.name?_canonical, Kind.name?_canonical] at names
      refine .cons shapes ?_ alike
      cases called : opensNext tokens with
      | false => exact .inl (by simpa [called] using names)
      | true => exact .inr ⟨rfl, by simpa [called] using names⟩

/-- A name in front of a bracket is still in front of it when the list is cut further behind. -/
theorem opensNext_of_upToClose {depth : Nat} {tokens : List Token}
    {parts : List Token × List Token} (found : upToClose depth tokens = some parts)
    (opens : opensNext tokens = true) : opensNext parts.1 = true := by
  cases tokens with
  | nil => cases opens
  | cons token rest =>
    have kind : token.kind = .openParen := by simpa [opensNext] using opens
    simp only [upToClose, kind] at found
    obtain ⟨inner, -, rfl⟩ := Option.map_eq_some_iff.1 found
    exact opens

namespace Alike

variable {tokens others : List Token}

/-- Two tokens in front of lists that were cut, but not between a name and its bracket. -/
theorem cons_cut {first second : Token} {inside within : List Token}
    (shape : first.kind.shape = second.kind.shape)
    (names : SameName (opensNext tokens) first second)
    (cut : opensNext tokens = true → opensNext inside = true)
    (rest : Alike inside within) : Alike (first :: inside) (second :: within) := by
  refine .cons shape ?_ rest
  rcases names with same | ⟨called, same⟩
  · exact .inl same
  · exact .inr ⟨cut called, same⟩

theorem upToClose_eq_some (alike : Alike tokens others) {depth : Nat} {inside rest : List Token}
    (found : upToClose depth tokens = some (inside, rest)) :
    ∃ within after, upToClose depth others = some (within, after) ∧
      Alike inside within ∧ Alike rest after := by
  induction alike generalizing depth inside with
  | nil => cases found
  | @cons first second tokens others shape names tail ih =>
    -- unless the bracket is found here, both lists are searched on, at the same depth
    have further (deeper : Nat)
        (here : upToClose depth (first :: tokens) =
          (upToClose deeper tokens).map (consFirst first))
        (there : upToClose depth (second :: others) =
          (upToClose deeper others).map (consFirst second)) :
        ∃ within after, upToClose depth (second :: others) = some (within, after) ∧
          Alike inside within ∧ Alike rest after := by
      rw [here] at found
      obtain ⟨⟨body, left⟩, inner, same⟩ := Option.map_eq_some_iff.1 found
      cases same
      obtain ⟨within, after, again, front, back⟩ := ih inner
      refine ⟨second :: within, after, by rw [there, again]; rfl, ?_, back⟩
      exact cons_cut shape names (opensNext_of_upToClose inner) front
    have opening := Iff.of_eq ((Kind.blind_eq .openParen rfl).congr shape)
    have closing := Iff.of_eq ((Kind.blind_eq .closeParen rfl).congr shape)
    by_cases opens : first.kind = .openParen
    · exact further (depth + 1) (by simp only [upToClose, opens])
        (by simp only [upToClose, opening.1 opens])
    · by_cases closes : first.kind = .closeParen
      · cases depth with
        | zero =>
          simp only [upToClose, closes, Option.some.injEq, Prod.mk.injEq] at found
          obtain ⟨rfl, rfl⟩ := found
          exact ⟨[], others, by simp only [upToClose, closing.1 closes], .nil, tail⟩
        | succ depth =>
          exact further depth (by simp only [upToClose, closes])
            (by simp only [upToClose, closing.1 closes])
      · exact further depth (upToClose_cons depth opens closes)
          (upToClose_cons depth (mt opening.2 opens) (mt closing.2 closes))

theorem enclosed_follows {tolerance : Tolerance} (alike : Alike tokens others)
    (opening other : Token) :
    Follows tolerance (fun parts found => Alike parts.1 found.1 ∧ Alike parts.2 found.2)
      (enclosed opening tokens) (enclosed other others) := by
  unfold enclosed
  cases found : upToClose 0 tokens with
  | some parts =>
    obtain ⟨within, after, again, front, back⟩ := alike.upToClose_eq_some found
    rw [again]
    exact .ok ⟨front, back⟩
  | none =>
    have missing : upToClose 0 others = none := by
      apply Option.eq_none_iff_forall_ne_some.2
      intro parts again
      obtain ⟨within, after, here, -, -⟩ := alike.symm.upToClose_eq_some again
      rw [found] at here
      cases here
    rw [missing]
    exact .variant rfl

/-- What the cut at the commas gives for two lists: the first parts are alike, and the others one
by one. A name in front of a bracket is not cut from it. -/
def SplitAlike (opens : Bool) (parts found : List Token × List (List Token)) : Prop :=
  Alike parts.1 found.1 ∧ List.Forall₂ Alike parts.2 found.2 ∧
    (opens = true → opensNext parts.1 = true)

theorem splitFrom_follows {tolerance : Tolerance} (alike : Alike tokens others) (depth : Nat)
    (started : Bool) (last final : Nat) :
    Follows tolerance (SplitAlike (opensNext tokens))
      (splitFrom depth started last tokens) (splitFrom depth started final others) := by
  induction alike generalizing depth started last final with
  | nil =>
    unfold splitFrom
    split
    · exact .variant rfl
    · split
      · exact .ok ⟨.nil, .nil, by simp [opensNext]⟩
      · exact .variant rfl
  | @cons first second tokens others shape names tail ih =>
    have further (deeper : Nat) : Follows tolerance
        (SplitAlike (opensNext (first :: tokens)))
        ((splitFrom deeper true first.stop tokens).map (consFirst first))
        ((splitFrom deeper true second.stop others).map (consFirst second)) := by
      apply (ih deeper true first.stop second.stop).map
      rintro parts found ⟨front, back, cut⟩
      exact ⟨cons_cut shape names cut front, back, id⟩
    have opening := Kind.blind_isOpening.congr shape
    have closing := Kind.blind_isClosing.congr shape
    have comma := (Kind.blind_beq .comma rfl).congr shape
    rw [splitFrom.eq_def, splitFrom.eq_def depth started final]
    simp only [Token.isComma, ← opening, ← closing, ← comma]
    by_cases opens : first.kind.isOpening = true
    · simp only [opens, ↓reduceIte]
      exact further _
    · by_cases closes : first.kind.isClosing = true
      · simp only [opens, closes, Bool.false_eq_true, ↓reduceIte]
        cases depth with
        | zero => exact .variant rfl
        | succ depth => exact further _
      · by_cases isComma : (first.kind == .comma) = true ∧ depth = 0
        · simp only [opens, closes, isComma, Bool.false_eq_true, ↓reduceIte, and_self]
          split
          · apply (ih 0 false first.stop second.stop).map
            rintro parts found ⟨front, back, -⟩
            refine ⟨.nil, .cons front back, ?_⟩
            simp_all [opensNext]
          · exact .variant rfl
        · simp only [opens, closes, isComma, Bool.false_eq_true, ↓reduceIte]
          exact further _

theorem splitArguments_follows {tolerance : Tolerance} (alike : Alike tokens others) :
    Follows tolerance (List.Forall₂ Alike) (splitArguments tokens)
      (splitArguments others) := by
  cases alike with
  | nil => exact .ok .nil
  | cons shape names rest =>
    apply ((Alike.cons shape names rest).splitFrom_follows 0 false 0 0).map
    rintro parts found ⟨front, back, -⟩
    exact .cons front back

/-- A choice of tokens that does not look at names or member marks picks the same places. -/
theorem topLevel_eq (alike : Alike tokens others) {selects : Token → Bool}
    (blind : ∀ {first second : Token}, first.kind.shape = second.kind.shape →
      selects first = selects second) : topLevel selects tokens = topLevel selects others := by
  have places (depth index : Nat) :
      topLevelFrom selects depth index tokens = topLevelFrom selects depth index others := by
    induction alike generalizing depth index with
    | nil => rfl
    | cons shape names rest ih =>
      simp only [topLevelFrom, Kind.blind_isOpening.congr shape, Kind.blind_isClosing.congr shape,
        blind shape, ih]
  exact places 0 0

theorem drop (alike : Alike tokens others) (count : Nat) :
    Alike (tokens.drop count) (others.drop count) := by
  induction alike generalizing count with
  | nil => simpa using Alike.nil
  | cons shape names rest ih =>
    cases count with
    | zero => exact .cons shape names rest
    | succ count => exact ih count

/-- A list may be cut in front of anything but a round bracket. -/
theorem take (alike : Alike tokens others) {count : Nat}
    (cut : ∀ token, tokens[count]? = some token → token.kind ≠ .openParen) :
    Alike (tokens.take count) (others.take count) := by
  induction alike generalizing count with
  | nil => simpa using Alike.nil
  | @cons first second tokens others shape names rest ih =>
    cases count with
    | zero => exact .nil
    | succ count =>
      refine cons_cut shape names ?_ (ih fun token there => cut token (by simpa using there))
      intro called
      cases tokens with
      | nil => cases called
      | cons next tokens =>
        cases count with
        | zero =>
          have opens : next.kind = .openParen := by simpa [opensNext] using called
          exact absurd opens (cut next rfl)
        | succ count => exact called

theorem referenceNames?_eq (alike : Alike tokens others) :
    referenceNames? tokens = referenceNames? others := by
  fun_induction referenceNames? tokens generalizing others with
  | case1 =>
    cases alike
    rfl
  | case2 token =>
    cases alike with
    | cons shape names rest =>
      cases rest
      have same := names.resolve_right (by simp [opensNext])
      rw [referenceNames?, same]
  | case3 token mark rest isMark ih =>
    cases alike with
    | cons shape names others =>
      cases others with
      | cons shape' names' others =>
        have other := Kind.blind_isMemberMark.congr shape'
        have apart : mark.kind ≠ .openParen := by
          intro opens
          rw [opens] at isMark
          cases isMark
        have same := names.resolve_right (by simp [opensNext, apart])
        rw [referenceNames?, ← other, if_pos isMark, same, ih others]
  | case4 token mark rest notMark =>
    cases alike with
    | cons shape names others =>
      cases others with
      | cons shape' names' others =>
        have other := Kind.blind_isMemberMark.congr shape'
        rw [referenceNames?, ← other, if_neg notMark]

end Alike

namespace Aggregation

variable {tolerance : Tolerance} {name : String} {tokens others : List Token}

/-- Clauses whose parts are alike. -/
structure Clause.Alike (first second : Clause) : Prop where
  collection : Formulary.Alike first.collection second.collection
  predicate : Option.Rel Formulary.Alike first.predicate second.predicate
  projection : Option.Rel Formulary.Alike first.projection second.projection

/-- Keys with one parameter whose bodies are alike. -/
structure Key.Alike (first second : Key) : Prop where
  parameter : first.parameter = second.parameter
  body : Formulary.Alike first.body second.body

theorem isSome_eq_of_rel {first second : Option (List Token)}
    (same : Option.Rel Formulary.Alike first second) : first.isSome = second.isSome := by
  cases same <;> rfl

theorem isWhere_of_shape {first second : Token} (shape : first.kind.shape = second.kind.shape) :
    first.isWhere = second.isWhere :=
  (Kind.blind_beq (.keyword .whereWord) rfl).congr shape

theorem isFatArrow_of_shape {first second : Token} (shape : first.kind.shape = second.kind.shape) :
    first.isFatArrow = second.isFatArrow := (Kind.blind_beq .fatArrow rfl).congr shape

theorem isComma_of_shape {first second : Token} (shape : first.kind.shape = second.kind.shape) :
    first.isComma = second.isComma := (Kind.blind_beq .comma rfl).congr shape

theorem nonEmpty_follows (cause : ClauseCause) (alike : Alike tokens others) :
    Follows tolerance Alike (nonEmpty name cause tokens) (nonEmpty name cause others) := by
  unfold nonEmpty
  simp only [alike.eq_nil_iff]
  split
  · exact .variant rfl
  · exact .ok alike

theorem cutClause_follows (alike : Alike tokens others) {whereAt arrowAt : Option Nat}
    (wheres : ∀ place ∈ whereAt, ∀ token, tokens[place]? = some token → token.kind ≠ .openParen)
    (arrows : ∀ place ∈ arrowAt, ∀ token, tokens[place]? = some token → token.kind ≠ .openParen) :
    Follows tolerance Clause.Alike (cutClause name tokens whereAt arrowAt)
      (cutClause name others whereAt arrowAt) := by
  rcases whereAt with _ | whereAt <;> rcases arrowAt with _ | arrowAt
  · exact .ok ⟨alike, .none, .none⟩
  · apply (nonEmpty_follows .emptyProjection (alike.drop _)).bind
    intro projection other behind
    exact .ok ⟨alike.take (arrows arrowAt rfl), .none, .some behind⟩
  · apply (nonEmpty_follows .emptyPredicate (alike.drop _)).bind
    intro predicate other behind
    exact .ok ⟨alike.take (wheres whereAt rfl), .some behind, .none⟩
  · simp only [cutClause]
    split
    · exact .variant rfl
    · have front := alike.take (arrows arrowAt rfl)
      apply (nonEmpty_follows .emptyPredicate (front.drop _)).bind
      intro predicate test between
      apply (nonEmpty_follows .emptyProjection (alike.drop _)).bind
      intro projection value behind
      exact .ok ⟨alike.take (wheres whereAt rfl), .some between, .some behind⟩

theorem splitClause_follows (alike : Alike tokens others) :
    Follows tolerance Clause.Alike (splitClause name tokens) (splitClause name others) := by
  unfold splitClause
  rw [← alike.topLevel_eq isComma_of_shape, ← alike.topLevel_eq isWhere_of_shape,
    ← alike.topLevel_eq isFatArrow_of_shape]
  split
  · exact .variant rfl
  · dsimp only
    split
    · exact .variant rfl
    · split
      · exact .variant rfl
      · have notOpen {selects : Token → Bool} (mark : Kind) (other : mark ≠ .openParen)
            (marks : ∀ token, selects token = true → token.kind = mark) :
            ∀ place ∈ (topLevel selects tokens).head?, ∀ token, tokens[place]? = some token →
              token.kind ≠ .openParen := by
          intro place found token there
          obtain ⟨marked, here, selected⟩ := selected_of_mem_topLevel (List.mem_of_mem_head? found)
          rw [there] at here
          cases here
          rw [marks token selected]
          exact other
        apply cutClause_follows alike
        · exact notOpen (.keyword .whereWord) (by simp) (by simp [Token.isWhere])
        · exact notOpen .fatArrow (by simp) (by simp [Token.isFatArrow])

theorem splitKey_follows (alike : Alike tokens others) :
    Follows tolerance Key.Alike (splitKey name tokens) (splitKey name others) := by
  unfold splitKey
  rw [← alike.topLevel_eq isFatArrow_of_shape]
  split
  · exact .variant rfl
  · cases alike with
    | nil => exact .variant rfl
    | @cons parameter other _ _ shape names rest =>
      cases rest with
      | nil => exact .variant rfl
      | @cons arrow mark body within shape' names' rest =>
        dsimp only
        rw [← isFatArrow_of_shape shape']
        split
        · rename_i isArrow
          have apart : opensNext (arrow :: body) = false := by
            simp_all [opensNext, Token.isFatArrow]
          have same := names.resolve_right (by simp [apart])
          rw [← same]
          split
          · exact .variant rfl
          · simp only [rest.eq_nil_iff]
            split
            · exact .variant rfl
            · exact .ok ⟨rfl, rest⟩
        · exact .variant rfl

theorem splitKeyed_follows {parts found : List (List Token)}
    (each : List.Forall₂ Alike parts found) :
    Follows tolerance
      (fun first second => Clause.Alike first.1 second.1 ∧ Key.Alike first.2 second.2)
      (splitKeyed name parts) (splitKeyed name found) := by
  have own : Clause.Alike ⟨[], none, none⟩ ⟨[], none, none⟩ := ⟨.nil, .none, .none⟩
  cases each with
  | nil => exact .variant rfl
  | cons first rest =>
    cases rest with
    | nil => exact (splitKey_follows first).bind fun key other same => .ok ⟨own, same⟩
    | cons second rest =>
      cases rest with
      | nil =>
        apply (splitClause_follows first).bind
        intro clause other parts
        have shown : clause.projection.isSome = other.projection.isSome :=
          isSome_eq_of_rel parts.projection
        rw [shown]
        split
        · exact .variant rfl
        · exact (splitKey_follows second).bind fun key found same => .ok ⟨parts, same⟩
      | cons => exact .variant rfl

end Aggregation

end Formulary
