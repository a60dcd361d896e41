import Formulary.Proofs.Layout
import Formulary.Proofs.Reading

set_option autoImplicit false

namespace Formulary

/-- The kinds of tokens that can go on an expression that they stand behind. -/
def Kind.isContinuation (kind : Kind) : Bool :=
  kind == .openParen || kind == .keyword .thenWord || kind.isMemberMark || kind == .caret ||
    (Grammar.productOperator? kind).isSome || (Grammar.sumOperator? kind).isSome ||
    (Grammar.comparisonOperator? kind).isSome || (Grammar.andOperator? kind).isSome ||
    (Grammar.orOperator? kind).isSome

/-- What stands behind an expression, and something else that stops it in the same way. -/
def StopsLike (rest other : List Token) : Prop :=
  other.head?.map Token.kind = rest.head?.map Token.kind ∨
    NotNext (fun kind => kind.isContinuation = true) other

namespace StopsLike

variable {rest other : List Token}

theorem append (like : StopsLike rest other) (used : List Token) :
    StopsLike (used ++ rest) (used ++ other) := by
  cases used with
  | nil => exact like
  | cons token used => exact .inl rfl

theorem notNext (like : StopsLike rest other) {test : Kind → Prop}
    (continues : ∀ kind, test kind → kind.isContinuation = true) (stops : NotNext test rest) :
    NotNext test other := by
  rcases like with same | hard
  · intro token found next
    rw [Option.mem_def.1 found] at same
    obtain ⟨head, found, kind⟩ := Option.map_eq_some_iff.1 same.symm
    exact stops head found (kind ▸ next)
  · exact fun token found next => hard token found (continues _ next)

end StopsLike

/-- What stands in front of `rest` is also taken in front of everything that stops it so. -/
def TakenAlone (takes : List Token → List Token → Prop) (tokens rest : List Token) : Prop :=
  ∃ used, tokens = used ++ rest ∧ ∀ other, StopsLike rest other → takes (used ++ other) other

namespace TakenAlone

variable {takes first second : List Token → List Token → Prop} {tokens middle rest : List Token}

theorem nothing (always : ∀ other, StopsLike rest other → takes other other) :
    TakenAlone takes rest rest := ⟨[], rfl, always⟩

theorem mono (alone : TakenAlone first tokens rest)
    (implies : ∀ tokens rest, first tokens rest → takes tokens rest) :
    TakenAlone takes tokens rest := by
  obtain ⟨used, rfl, each⟩ := alone
  exact ⟨used, rfl, fun other like => implies _ _ (each other like)⟩

theorem cons (token : Token) (alone : TakenAlone first tokens rest)
    (implies : ∀ tokens rest, first tokens rest → takes (token :: tokens) rest) :
    TakenAlone takes (token :: tokens) rest := by
  obtain ⟨used, rfl, each⟩ := alone
  exact ⟨token :: used, rfl, fun other like => implies _ _ (each other like)⟩

theorem trans (before : TakenAlone first tokens middle) (behind : TakenAlone second middle rest)
    (implies : ∀ tokens middle rest, first tokens middle → second middle rest →
      takes tokens rest) : TakenAlone takes tokens rest := by
  obtain ⟨used, rfl, each⟩ := before
  obtain ⟨more, rfl, others⟩ := behind
  refine ⟨used ++ more, by rw [List.append_assoc], fun other like => ?_⟩
  rw [List.append_assoc]
  exact implies _ _ _ (each _ (like.append more)) (others other like)

/-- Two parts with a mark between them. -/
theorem separated {mark : Token} (before : TakenAlone first tokens (mark :: middle))
    (behind : TakenAlone second middle rest)
    (implies : ∀ tokens middle rest, first tokens (mark :: middle) → second middle rest →
      takes tokens rest) : TakenAlone takes tokens rest := by
  obtain ⟨used, rfl, each⟩ := before
  obtain ⟨more, rfl, others⟩ := behind
  refine ⟨used ++ mark :: more, by simp, fun other like => ?_⟩
  rw [List.append_assoc]
  exact implies _ _ _ (each _ (.inl rfl)) (others other like)

/-- What is taken if no such token follows. -/
theorem stopped {test : Kind → Prop} (alone : TakenAlone first tokens rest)
    (stops : NotNext test rest) (continues : ∀ kind, test kind → kind.isContinuation = true)
    (implies : ∀ tokens rest, first tokens rest → NotNext test rest → takes tokens rest) :
    TakenAlone takes tokens rest := by
  obtain ⟨used, rfl, each⟩ := alone
  exact ⟨used, rfl, fun other like =>
    implies _ _ (each other like) (like.notNext continues stops)⟩

/-- What is taken if no such token is the first. -/
theorem headed {test : Kind → Prop} (alone : TakenAlone first tokens rest)
    (shorter : rest.length < tokens.length) (starts : NotNext test tokens)
    (implies : ∀ tokens rest, NotNext test tokens → first tokens rest → takes tokens rest) :
    TakenAlone takes tokens rest := by
  obtain ⟨used, rfl, each⟩ := alone
  refine ⟨used, rfl, fun other like => implies _ _ ?_ (each other like)⟩
  cases used with
  | nil => exact absurd shorter (Nat.lt_irrefl _)
  | cons token used => exact starts

end TakenAlone

namespace Grammar

open Traced

/-- The reader takes an expression in front of everything that stops it. -/
def Persists (reader : Reader) : Prop :=
  ∀ ⦃context : Context⦄ ⦃tokens : List Token⦄ ⦃expr : Expr⦄ ⦃rest : List Token⦄,
    (reader context tokens).Yields expr rest →
      TakenAlone (fun tokens rest => (reader context tokens).Yields expr rest) tokens rest

section Levels

variable {context : Context} {expr : Expr} {tokens rest : List Token}

theorem chained_alone {operator? : Kind → Option BinaryOp} {operand : Reader}
    (persists : Persists operand)
    (continues : ∀ kind, (operator? kind).isSome = true → kind.isContinuation = true) {left : Expr}
    (chained : Chained operator? operand context left tokens expr rest) :
    TakenAlone (fun tokens rest => Chained operator? operand context left tokens expr rest)
      tokens rest := by
  induction chained with
  | stop stops =>
    exact .nothing fun other like => .stop (like.notNext continues stops)
  | @step op left right final token tokens middle last found taken more ih =>
    refine .cons token ?_ fun _ _ chained => chained
    exact (persists taken).trans ih fun _ _ _ taken more => .step found taken more

theorem persists_leftAssociative {operator? : Kind → Option BinaryOp} {operand : Reader}
    (persists : Persists operand)
    (continues : ∀ kind, (operator? kind).isSome = true → kind.isContinuation = true) :
    Persists (leftAssociative operator? operand) := by
  intro context tokens expr rest yields
  obtain ⟨first, middle, taken, chained⟩ := leftAssociative_yields.1 yields
  apply (persists taken).trans (chained_alone persists continues chained)
  intro tokens middle rest taken chained
  exact leftAssociative_yields.2 ⟨first, middle, taken, chained⟩

variable {inner : Inner} (persists : ∀ entry, Persists (inner entry))

include persists

theorem listed_alone {exprs : List Expr} {last : Token} (other : last.kind ≠ .comma)
    (listed : Listed (inner .expression) context tokens exprs (last :: rest)) :
    ∃ used, tokens = used ++ last :: rest ∧
      ∀ rest, Listed (inner .expression) context (used ++ last :: rest) exprs (last :: rest) := by
  generalize final : last :: rest = left at listed
  induction listed with
  | last taken _ =>
    obtain ⟨used, rfl, each⟩ := persists .expression taken
    subst final
    exact ⟨used, rfl, fun rest => .last (each _ (.inl rfl)) (notNext_cons.2 other)⟩
  | @more expr exprs comma tokens middle left taken kind others ih =>
    obtain ⟨used, rfl, each⟩ := persists .expression taken
    obtain ⟨more, rfl, list⟩ := ih final
    refine ⟨used ++ comma :: more, by simp, fun rest => ?_⟩
    rw [List.append_assoc]
    exact .more (each _ (.inl rfl)) kind (list rest)

theorem group_alone (yields : (group inner context tokens).Yields expr rest) :
    TakenAlone (fun tokens rest => (group inner context tokens).Yields expr rest) tokens rest := by
  obtain ⟨exprs, last, listed, closes, rfl⟩ := group_yields.1 yields
  obtain ⟨used, rfl, each⟩ := listed_alone persists (by simp [closes]) listed
  refine ⟨used ++ [last], by simp, fun other _ => ?_⟩
  rw [List.append_assoc]
  exact group_yields.2 ⟨exprs, last, each other, closes, rfl⟩

theorem listLiteral_alone (yields : (listLiteral inner context tokens).Yields expr rest) :
    TakenAlone (fun tokens rest => (listLiteral inner context tokens).Yields expr rest) tokens
      rest := by
  rcases listLiteral_yields.1 yields with
    ⟨last, rfl, closes, rfl⟩ | ⟨nonempty, exprs, last, listed, closes, rfl⟩
  · exact ⟨[last], rfl, fun other _ => listLiteral_yields.2 (.inl ⟨last, rfl, closes, rfl⟩)⟩
  · obtain ⟨used, rfl, each⟩ := listed_alone persists (by simp [closes]) listed
    refine ⟨used ++ [last], by simp, fun other _ => ?_⟩
    rw [List.append_assoc]
    refine listLiteral_yields.2 (.inr ⟨?_, exprs, last, each other, closes, rfl⟩)
    cases used with
    | nil => exact nonempty
    | cons first used => exact nonempty

omit persists in
theorem members_alone {stop : Nat} {tail : Members (tokens.length + 1)}
    (found : members stop tokens = .ok tail) :
    TakenAlone (fun tokens rest => ∃ shorter, members stop tokens =
      .ok ⟨tail.names, tail.stop, rest, shorter⟩) tokens tail.rest := by
  have ended {stop : Nat} {rest : List Token}
      (stops : NotNext (fun kind => kind.isMemberMark = true) rest) :
      TakenAlone (fun tokens rest => ∃ shorter, members stop tokens = .ok ⟨[], stop, rest, shorter⟩)
        rest rest := by
    refine .nothing fun other like => members_of_notNext (like.notNext ?_ stops)
    intro kind mark
    simp [Kind.isContinuation, mark]
  fun_induction members stop tokens with
  | case1 stop =>
    cases found
    exact ended notNext_nil
  | case2 stop mark isMark => cases found
  | case3 stop mark notMark =>
    cases found
    exact ended (notNext_cons.2 notMark)
  | case4 stop mark token rest isMark unnamed => cases found
  | case5 stop mark token rest isMark member named ih =>
    simp only [bind, Except.bind] at found
    split at found
    · cases found
    · rename_i more success
      cases found
      obtain ⟨used, whole, each⟩ := ih success
      refine ⟨mark :: token :: used, by simp [whole], fun other like => ?_⟩
      obtain ⟨shorter, again⟩ := each other like
      refine ⟨by simp only [List.length_append, List.length_cons] at shorter ⊢; omega, ?_⟩
      change members stop (mark :: token :: (used ++ other)) = _
      rw [members, if_pos isMark, named]
      simp only [again, bind, Except.bind, pure, Except.pure]
  | case6 stop mark token rest notMark =>
    cases found
    exact ended (notNext_cons.2 notMark)

omit persists in
theorem nameValue_alone {head : Token} {name : String}
    (yields : (nameValue context head name tokens).Yields expr rest) :
    TakenAlone (fun tokens rest => (nameValue context head name tokens).Yields expr rest) tokens
      rest := by
  rcases nameValue_yields.1 yields with ⟨known, rfl⟩ | ⟨unknown, tail, path, found, value, rfl, rfl⟩
  · exact .nothing fun other _ => nameValue_yields.2 (.inl ⟨known, rfl⟩)
  · apply (members_alone found).mono
    rintro tokens rest ⟨shorter, again⟩
    exact nameValue_yields.2 (.inr ⟨unknown, _, path, again, value, rfl, rfl⟩)

omit persists in
theorem upToClose_alone {depth : Nat} {inside : List Token}
    (closed : upToClose depth tokens = some (inside, rest)) :
    TakenAlone (fun tokens rest => upToClose depth tokens = some (inside, rest)) tokens rest := by
  fun_induction upToClose depth tokens generalizing inside with
  | case1 => cases closed
  | case2 depth token tokens kind ih =>
    obtain ⟨⟨body, tail⟩, inner, same⟩ := Option.map_eq_some_iff.1 closed
    cases same
    apply (ih inner).cons token
    intro tokens rest inner
    simp only [upToClose, kind, inner, Option.map_some, consFirst]
  | case3 token tokens kind =>
    cases closed
    exact ⟨[token], rfl, fun other _ => by simp [upToClose, kind]⟩
  | case4 token tokens kind depth ih =>
    obtain ⟨⟨body, tail⟩, inner, same⟩ := Option.map_eq_some_iff.1 closed
    cases same
    apply (ih inner).cons token
    intro tokens rest inner
    simp only [upToClose, kind, inner, Option.map_some, consFirst]
  | case5 depth token tokens opens closes ih =>
    obtain ⟨⟨body, tail⟩, inner, same⟩ := Option.map_eq_some_iff.1 closed
    cases same
    apply (ih inner).cons token
    intro tokens rest inner
    rw [upToClose_cons depth opens closes, inner]
    rfl

omit persists in
theorem named_alone {head : Token} {name : String}
    (yields : (named inner context head name tokens).Yields expr rest) :
    TakenAlone (fun tokens rest => (named inner context head name tokens).Yields expr rest) tokens
      rest := by
  by_cases stops : NotNext (· = .openParen) tokens
  · rw [named_value stops] at yields
    obtain ⟨used, rfl, each⟩ := nameValue_alone yields
    refine ⟨used, rfl, fun other like => ?_⟩
    have stillStops : NotNext (· = .openParen) (used ++ other) :=
      (like.append used).notNext (by rintro _ rfl; rfl) stops
    dsimp only
    rw [named_value stillStops]
    exact each other like
  · cases tokens with
    | nil => exact absurd notNext_nil stops
    | cons opening tokens =>
      have opens : opening.kind = .openParen := by simpa using stops
      obtain ⟨arguments, closed, success⟩ := (named_call opens).1 yields
      apply (upToClose_alone closed).cons opening
      exact fun _ _ closed => (named_call opens).2 ⟨arguments, closed, success⟩

theorem branches_alone {condition : Expr}
    (yields : (branches inner context condition tokens).Yields expr rest) :
    TakenAlone (fun tokens rest => (branches inner context condition tokens).Yields expr rest)
      tokens rest := by
  obtain ⟨yes, word, after, no, first, kind, second, rfl⟩ := branches_yields.1 yields
  apply (persists .expression first).separated (persists .expression second)
  intro tokens after rest first second
  exact branches_yields.2 ⟨yes, word, after, no, first, kind, second, rfl⟩

theorem conditional_alone {keyword : Token}
    (yields : (conditional inner context keyword tokens).Yields expr rest) :
    TakenAlone (fun tokens rest => (conditional inner context keyword tokens).Yields expr rest)
      tokens rest := by
  obtain ⟨opening, after, inside, tail, rfl, opens, closed, call | branch⟩ :=
    conditional_yields.1 yields
  · obtain ⟨stops, rfl, success⟩ := call
    refine .cons opening ?_ fun _ _ yields => yields
    apply (upToClose_alone closed).stopped stops (by rintro _ rfl; rfl)
    intro after rest closed stops
    exact conditional_yields.2 ⟨_, _, _, _, rfl, opens, closed, .inl ⟨stops, rfl, success⟩⟩
  · obtain ⟨word, more, test, rfl, isThen, success, branch⟩ := branch
    refine .cons opening ?_ fun _ _ yields => yields
    apply (upToClose_alone closed).separated (branches_alone persists branch)
    intro after more rest closed branch
    exact conditional_yields.2
      ⟨_, _, _, _, rfl, opens, closed, .inr ⟨_, _, _, rfl, isThen, success, branch⟩⟩

theorem persists_primary : Persists (primary inner) := by
  intro context tokens expr rest yields
  cases tokens with
  | nil => exact absurd yields primary_nil
  | cons token tokens =>
    have starts := primary_starts yields
    cases kind : token.kind with
    | number digits =>
      obtain ⟨rfl, rfl⟩ := (primary_number kind).1 yields
      exact ⟨[token], rfl, fun other _ => (primary_number kind).2 ⟨rfl, rfl⟩⟩
    | string literal =>
      obtain ⟨rfl, rfl⟩ := (primary_string kind).1 yields
      exact ⟨[token], rfl, fun other _ => (primary_string kind).2 ⟨rfl, rfl⟩⟩
    | openParen =>
      apply (group_alone persists ((primary_openParen kind).1 yields)).cons token
      exact fun _ _ yields => (primary_openParen kind).2 yields
    | openBracket =>
      apply (listLiteral_alone persists ((primary_openBracket kind).1 yields)).cons token
      exact fun _ _ yields => (primary_openBracket kind).2 yields
    | ident name =>
      apply (named_alone ((primary_ident kind).1 yields)).cons token
      exact fun _ _ yields => (primary_ident kind).2 yields
    | keyword word =>
      cases word with
      | ifWord =>
        apply (conditional_alone persists ((primary_if kind).1 yields)).cons token
        exact fun _ _ yields => (primary_if kind).2 yields
      | _ => simp [kind, startsPrimary] at starts
    | _ => simp [kind, startsPrimary] at starts

theorem persists_power : Persists (power inner) := by
  intro context tokens expr rest yields
  obtain ⟨base, middle, taken, ⟨stops, rfl, rfl⟩ | raised⟩ := power_yields.1 yields
  · apply (persists_primary persists taken).stopped stops (by rintro _ rfl; rfl)
    intro tokens rest taken stops
    exact power_yields.2 ⟨_, _, taken, .inl ⟨stops, rfl, rfl⟩⟩
  · obtain ⟨caret, after, exponent, rfl, kind, raises, rfl⟩ := raised
    apply (persists_primary persists taken).separated (persists .signed raises)
    intro tokens after rest taken raises
    exact power_yields.2 ⟨_, _, taken, .inr ⟨_, _, _, rfl, kind, raises, rfl⟩⟩

theorem persists_signed : Persists (signed inner) := by
  intro context tokens expr rest yields
  by_cases unsigned : NotNext (fun kind => kind = .minus ∨ kind = .plus) tokens
  · have ⟨shorter, _⟩ := yields
    rw [signed_unsigned unsigned] at yields
    apply (persists_power persists yields).headed shorter unsigned
    intro tokens rest unsigned yields
    rwa [signed_unsigned unsigned]
  · cases tokens with
    | nil => exact absurd notNext_nil unsigned
    | cons token tokens =>
      rcases Classical.not_not.1 (mt notNext_cons.2 unsigned) with minus | plus
      · obtain ⟨operand, taken, rfl⟩ := (signed_minus minus).1 yields
        apply (persists .signed taken).cons token
        exact fun _ _ taken => (signed_minus minus).2 ⟨_, taken, rfl⟩
      · apply (persists .signed ((signed_plus plus).1 yields)).cons token
        exact fun _ _ taken => (signed_plus plus).2 taken

theorem persists_sum : Persists (sum inner) := by
  refine persists_leftAssociative (persists_leftAssociative (persists_signed persists) ?_)
    ?_
  · intro kind found
    simp [Kind.isContinuation, found]
  · intro kind found
    simp [Kind.isContinuation, found]

theorem persists_comparison : Persists (comparison inner) := by
  intro context tokens expr rest yields
  obtain ⟨left, middle, taken, ⟨stops, rfl, rfl⟩ | compared⟩ := comparison_yields.1 yields
  · apply (persists_sum persists taken).stopped stops
      (by intro kind found; simp [Kind.isContinuation, found])
    intro tokens rest taken stops
    exact comparison_yields.2 ⟨_, _, taken, .inl ⟨stops, rfl, rfl⟩⟩
  · obtain ⟨sign, after, op, right, rfl, found, behind, rfl⟩ := compared
    apply (persists_sum persists taken).separated (persists_sum persists behind)
    intro tokens after rest taken behind
    exact comparison_yields.2 ⟨_, _, taken, .inr ⟨_, _, _, _, rfl, found, behind, rfl⟩⟩

theorem persists_negation : Persists (negation inner) := by
  intro context tokens expr rest yields
  by_cases positive : NotNext (· = .keyword .notWord) tokens
  · have ⟨shorter, _⟩ := yields
    rw [negation_positive positive] at yields
    apply (persists_comparison persists yields).headed shorter positive
    intro tokens rest positive yields
    rwa [negation_positive positive]
  · cases tokens with
    | nil => exact absurd notNext_nil positive
    | cons token tokens =>
      have kind : token.kind = .keyword .notWord := by simpa using positive
      obtain ⟨operand, taken, rfl⟩ := (negation_not kind).1 yields
      apply (persists .negation taken).cons token
      exact fun _ _ taken => (negation_not kind).2 ⟨_, taken, rfl⟩

theorem persists_disjunction : Persists (disjunction inner) := by
  refine persists_leftAssociative (persists_leftAssociative (persists_negation persists) ?_) ?_
  · intro kind found
    simp [Kind.isContinuation, found]
  · intro kind found
    simp [Kind.isContinuation, found]

end Levels

theorem persists_readerAt (levels : Nat) (entry : Entry) : Persists (readerAt levels entry) := by
  induction levels generalizing entry with
  | zero =>
    intro context tokens expr rest yields
    exact absurd yields readerAt_zero
  | succ levels ih =>
    cases entry with
    | expression => exact persists_disjunction ih
    | negation => exact persists_negation ih
    | signed => exact persists_signed ih

theorem yields_unique {reader : Reader} {context : Context} {tokens rest after : List Token}
    {expr other : Expr} (first : (reader context tokens).Yields expr rest)
    (second : (reader context tokens).Yields other after) : expr = other ∧ rest = after := by
  obtain ⟨_, first⟩ := first
  obtain ⟨_, second⟩ := second
  rw [first] at second
  cases second
  exact ⟨rfl, rfl⟩

/-- More levels of nesting, another source text and another end of the list do not change what is
read, unless a bracket follows that no reader takes. -/
theorem yields_more {levels : Nat} (spare : Nat) {entry : Entry} {source : List Char}
    (text : List Char) {scope : Scope} {stop : Nat} (final : Nat) {tokens rest : List Token}
    {expr : Expr} (yields : (readerAt levels entry ⟨source, scope, stop⟩ tokens).Yields expr rest) :
    ∃ value, (readerAt (spare + levels) entry ⟨text, scope, final⟩ tokens).Yields value rest ∧
      (expr = value ∨ opensNext rest = true) := by
  have deepest (entry : Entry) : Steady .lenient tooDeep (readerAt spare entry) := by
    intro _ text scope _ final _ others _
    cases (readerAt spare entry ⟨text, scope, final⟩ others).result with
    | ok _ => exact .rescued trivial
    | error _ => exact .error trivial
  have ⟨shorter, success⟩ := yields
  have follows := steady_readerAt levels spare deepest entry source text scope stop final
    (Alike.refl tokens)
  rw [success] at follows
  generalize again : (readerAt (spare + levels) entry ⟨text, scope, final⟩ tokens).result = second
    at follows
  cases follows with
  | @ok _ step values =>
    obtain ⟨value, after, fewer⟩ := step
    obtain ⟨alike, same⟩ := values
    have yieldsAgain : (readerAt (spare + levels) entry ⟨text, scope, final⟩ tokens).Yields value
      after := ⟨fewer, again⟩
    -- both rests are the last tokens of one list, and as many
    obtain ⟨used, whole, -⟩ := persists_readerAt _ _ yields
    obtain ⟨usedAgain, wholeAgain, -⟩ := persists_readerAt _ _ yieldsAgain
    obtain ⟨-, rfl⟩ := List.append_inj' (whole.symm.trans wholeAgain) alike.length_eq
    exact ⟨value, yieldsAgain, same⟩

/-- The same with as many levels, in front of no bracket. -/
theorem yields_context {levels : Nat} {entry : Entry} {source : List Char} (text : List Char)
    {scope : Scope} {stop : Nat} (final : Nat) {tokens rest : List Token} {expr : Expr}
    (stops : opensNext rest = false)
    (yields : (readerAt levels entry ⟨source, scope, stop⟩ tokens).Yields expr rest) :
    (readerAt levels entry ⟨text, scope, final⟩ tokens).Yields expr rest := by
  obtain ⟨value, again, same⟩ := yields_more 0 text final yields
  rw [Nat.zero_add] at again
  obtain rfl := same.resolve_right (by simp [stops])
  exact again

end Grammar

/-- Tokens that cannot go on an expression in front of them. -/
def Ending (rest : List Token) : Prop := NotNext (fun kind => kind.isContinuation = true) rest

theorem Ending.opensNext {rest : List Token} (ending : Ending rest) : opensNext rest = false := by
  cases rest with
  | nil => rfl
  | cons token rest =>
    have stops := notNext_cons.1 ending
    cases opens : Formulary.opensNext (token :: rest) with
    | false => rfl
    | true =>
      have kind : token.kind = .openParen := by simpa [Formulary.opensNext] using opens
      simp [kind, Kind.isContinuation] at stops

/-- Tokens that are an expression with some levels to spare are read in place as they are alone,
with as many levels as there are. -/
theorem readerAt_inPlace {levels spare : Nat} {source text : List Char} {scope : Scope} {stop : Nat}
    {tokens rest after : List Token} {expr whole : Expr} (ending : Ending rest)
    (accepted : (readWhole (Grammar.readerAt (spare + levels)) source scope tokens).result =
      .ok whole) :
    (Grammar.readerAt levels .expression ⟨text, scope, stop⟩ (tokens ++ rest)).Yields expr after ↔
      after = rest ∧
        (readWhole (Grammar.readerAt levels) source scope tokens).result = .ok expr := by
  have extended {levels : Nat} {expr : Expr}
      (alone : (readWhole (Grammar.readerAt levels) source scope tokens).result = .ok expr) :
      (Grammar.readerAt levels .expression ⟨text, scope, stop⟩ (tokens ++ rest)).Yields expr
        rest := by
    obtain ⟨-, yields⟩ := readWhole_eq_ok.1 alone
    have yields := Grammar.yields_context text stop rfl yields
    obtain ⟨used, same, each⟩ := Grammar.persists_readerAt _ _ yields
    rw [List.append_nil] at same
    subst same
    exact each rest (.inr ending)
  constructor
  · intro yields
    obtain ⟨value, again, same⟩ := Grammar.yields_more spare text stop yields
    obtain ⟨rfl, rfl⟩ := Grammar.yields_unique again (extended accepted)
    obtain rfl := same.resolve_right (by simp [ending.opensNext])
    obtain ⟨used, whole, each⟩ := Grammar.persists_readerAt _ _ yields
    obtain rfl := List.append_cancel_right whole
    have alone := each [] (.inr notNext_nil)
    rw [List.append_nil] at alone
    have nonempty := (readWhole_eq_ok.1 accepted).1
    exact ⟨rfl, readWhole_eq_ok.2 ⟨nonempty, Grammar.yields_context source _ rfl alone⟩⟩
  · rintro ⟨rfl, alone⟩
    exact extended alone

end Formulary
