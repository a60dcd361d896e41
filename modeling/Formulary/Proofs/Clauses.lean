import Mathlib
import Formulary.Proofs.Arguments
import Formulary.Proofs.Blame

set_option autoImplicit false

namespace Formulary

/-- The tokens that tell the parts of a clause apart. -/
def Token.isDivider (token : Token) : Bool := token.isComma || token.isWhere || token.isFatArrow

theorem Token.isInner_of_isDivider {token : Token} (divides : token.isDivider = true) :
    token.kind.isInner true = true := by
  simp only [isDivider, isComma, isWhere, isFatArrow, Bool.or_eq_true, beq_iff_eq] at divides
  rcases divides with (kind | kind) | kind <;> rw [kind] <;> rfl

/-- Tokens with paired brackets that nothing outside those brackets divides. -/
structure IsPart (tokens : List Token) : Prop where
  paired : Paired tokens
  undivided : Without Token.isDivider tokens

theorem isPart_iff {tokens : List Token} (paired : Paired tokens) :
    IsPart tokens ↔ topLevel Token.isDivider tokens = [] := by
  rw [← without_iff paired fun _ => Token.isInner_of_isDivider]
  exact ⟨IsPart.undivided, fun undivided => ⟨paired, undivided⟩⟩

/-- Neither a bracket nor a token that tells parts apart. -/
def Kind.isPlain (kind : Kind) : Bool :=
  kind.isInner false && kind != .keyword .whereWord && kind != .fatArrow

namespace IsPart

variable {token opening closing : Token} {tokens first second : List Token}

theorem nil : IsPart [] := (isPart_iff (show Paired [] from rfl)).2 rfl

theorem cons (plain : token.kind.isPlain = true) (part : IsPart tokens) :
    IsPart (token :: tokens) := by
  have inner : token.kind.isInner true = true := by
    simp only [Kind.isPlain, Kind.isInner, Bool.and_eq_true] at plain ⊢
    exact ⟨plain.1.1.1, rfl⟩
  have undivided : token.isDivider = false := by
    simp only [Kind.isPlain, Kind.isInner, Bool.and_eq_true, Bool.false_or, bne_iff_ne] at plain
    simp [Token.isDivider, Token.isComma, Token.isWhere, Token.isFatArrow, plain]
  rw [isPart_iff ((Paired.cons_iff inner).2 part.paired), topLevel_cons inner, undivided,
    (isPart_iff part.paired).1 part]
  rfl

theorem append (before : IsPart first) (behind : IsPart second) : IsPart (first ++ second) := by
  rw [isPart_iff (before.paired.append_iff.2 behind.paired), topLevel_append before.paired,
    (isPart_iff before.paired).1 before, (isPart_iff behind.paired).1 behind]
  rfl

/-- Whatever is in brackets is not divided outside them. -/
theorem bracketed (opens : opening.kind.isOpening = true) (closes : closing.kind.isClosing = true)
    (apart : closing.kind.isOpening = false) (within : Closed true tokens) :
    IsPart (opening :: (tokens ++ [closing])) := by
  have paired : Paired (opening :: (tokens ++ [closing])) := by
    rw [Paired, depthAfter?, if_pos opens, depthAfter?_append, within.depthAfter?_eq]
    simp [depthAfter?, apart, closes]
  rw [isPart_iff paired]
  exact topLevelFrom_bracketed opens closes apart 0 0 (within.depthAfter?_eq 1)
    (fun index => within.topLevelFrom_succ _ 0 index) fun _ => rfl

theorem of_dotted {names : List String} (dotted : referenceNames? tokens = some names) :
    IsPart tokens := by
  have plain : ∀ token ∈ tokens, token.kind.isPlain = true := by
    intro token member
    rcases (referenceNames?_tokens dotted).1 token member with ⟨name, named⟩ | mark
    · rw [named]
      rfl
    · cases kind : token.kind <;> simp [kind, Kind.isMemberMark] at mark <;> rfl
  clear dotted
  induction tokens with
  | nil => exact .nil
  | cons token tokens ih =>
    exact .cons (plain token (by simp)) (ih fun other member => plain other (by simp [member]))

end IsPart

/-- A scan for some of the dividers finds nothing in a part. -/
theorem IsPart.topLevel_eq_nil {selects : Token → Bool} {tokens : List Token}
    (part : IsPart tokens) (divides : ∀ token, selects token = true → token.isDivider = true) :
    topLevel selects tokens = [] := by
  rw [← without_iff part.paired fun token selected => Token.isInner_of_isDivider
    (divides token selected)]
  intro before token after cut outside
  cases selected : selects token with
  | false => rfl
  | true =>
    have other := part.undivided before token after cut outside
    rw [divides token selected] at other
    cases other

/-- The first divider outside brackets, if there is one, has a part in front of it. -/
theorem isPart_or_divided {tokens : List Token} (paired : Paired tokens) :
    IsPart tokens ∨ ∃ before token after, tokens = before ++ token :: after ∧ IsPart before ∧
      Paired after ∧ token.kind.isInner true = true ∧
      (token.kind = .comma ∨ token.kind = .keyword .whereWord ∨ token.kind = .fatArrow) := by
  cases found : topLevel Token.isDivider tokens with
  | nil => exact .inl ((isPart_iff paired).2 found)
  | cons place more =>
    obtain ⟨before, token, after, rfl, -, divides, inner, outside, behind, undivided, -⟩ :=
      cut_of_topLevel paired found
    refine .inr ⟨before, token, after, rfl, (isPart_iff outside).2 undivided, behind, inner, ?_⟩
    simpa [Token.isDivider, Token.isComma, Token.isWhere, Token.isFatArrow, or_assoc] using divides

/-- The tokens that a mark is looked for among. -/
def Mark.selects : Mark → Token → Bool
  | whereWord => Token.isWhere
  | fatArrow => Token.isFatArrow

namespace Aggregation

/-- The tokens are the parts of the clause, each behind its mark. -/
structure IsClause (tokens : List Token) (clause : Clause) : Prop where
  written : ∃ middle behind, tokens = clause.collection ++ middle ++ behind ∧
    Marked .whereWord clause.predicate middle ∧ Marked .fatArrow clause.projection behind
  collection : IsPart clause.collection
  predicate : ∀ part ∈ clause.predicate, IsPart part ∧ part ≠ []
  projection : ∀ part ∈ clause.projection, IsPart part ∧ part ≠ []

/-- What keeps tokens from being a clause. All that is asked for stands outside brackets. -/
inductive MalformedClause (tokens : List Token) : Prop where
  | comma {before after : List Token} {comma : Token} (cut : tokens = before ++ comma :: after)
      (outside : Paired before) (kind : comma.kind = .comma)
  | repeated {mark : Mark} {before between after : List Token} {first second : Token}
      (cut : tokens = before ++ first :: (between ++ second :: after)) (outside : Paired before)
      (further : Paired between) (kind : first.kind = mark.kind) (again : second.kind = mark.kind)
  | arrowBeforeWhere {before between after : List Token} {arrow word : Token}
      (cut : tokens = before ++ arrow :: (between ++ word :: after)) (outside : Paired before)
      (further : Paired between) (isArrow : arrow.kind = .fatArrow)
      (isWhere : word.kind = .keyword .whereWord)
  | emptyPredicate {before after : List Token} {word : Token}
      (cut : tokens = before ++ word :: after) (outside : Paired before)
      (isWhere : word.kind = .keyword .whereWord)
      (nothing : after = [] ∨ ∃ arrow rest, after = arrow :: rest ∧ arrow.kind = .fatArrow)
  | emptyProjection {before : List Token} {arrow : Token} (cut : tokens = before ++ [arrow])
      (outside : Paired before) (isArrow : arrow.kind = .fatArrow)

private theorem projection_or_malformed {before after : List Token} {arrow : Token}
    (outside : Paired before) (isArrow : arrow.kind = .fatArrow) (behind : Paired after) :
    (IsPart after ∧ after ≠ []) ∨ MalformedClause (before ++ arrow :: after) := by
  have inner : arrow.kind.isInner true = true := by rw [isArrow]; rfl
  rcases isPart_or_divided behind with part | ⟨between, token, after, rfl, free, -, -, kind⟩
  · by_cases nothing : after = []
    · subst nothing
      exact .inr (.emptyProjection rfl outside isArrow)
    · exact .inl ⟨part, nothing⟩
  · rcases kind with kind | kind | kind
    · have front : Paired (before ++ arrow :: between) := outside.append_cons inner free.paired
      exact .inr (@MalformedClause.comma _ _ after token (by simp) front kind)
    · exact .inr (.arrowBeforeWhere rfl outside free.paired isArrow kind)
    · exact .inr (@MalformedClause.repeated _ .fatArrow _ _ _ _ _ rfl outside free.paired isArrow
        kind)

/-- Tokens with paired brackets are a clause unless something is wrong with them. -/
theorem malformed_or_isClause {tokens : List Token} (paired : Paired tokens) :
    MalformedClause tokens ∨ ∃ clause, IsClause tokens clause := by
  rcases isPart_or_divided paired with
    part | ⟨collection, mark, after, rfl, part, behind, inner, kind⟩
  · exact .inr ⟨⟨tokens, none, none⟩, ⟨[], [], by simp, rfl, rfl⟩, part, by simp, by simp⟩
  rcases kind with kind | isWhere | isArrow
  · exact .inl (.comma rfl part.paired kind)
  · rcases isPart_or_divided behind with
      test | ⟨predicate, second, after, rfl, test, behind, -, kind⟩
    · by_cases nothing : after = []
      · exact .inl (.emptyPredicate rfl part.paired isWhere (.inl nothing))
      · exact .inr ⟨⟨collection, some after, none⟩,
          ⟨mark :: after, [], by simp, ⟨mark, rfl, isWhere⟩, rfl⟩, part, by simp [test, nothing],
          by simp⟩
    have front : Paired (collection ++ mark :: predicate) :=
      part.paired.append_cons inner test.paired
    rcases kind with kind | again | isArrow
    · exact .inl (@MalformedClause.comma _ _ after second (by simp) front kind)
    · exact .inl (@MalformedClause.repeated _ .whereWord _ _ _ _ _ rfl part.paired test.paired
        isWhere again)
    · by_cases nothing : predicate = []
      · subst nothing
        exact .inl (.emptyPredicate rfl part.paired isWhere (.inr ⟨second, after, rfl, isArrow⟩))
      · rcases projection_or_malformed front isArrow behind with ⟨value, present⟩ | malformed
        · exact .inr ⟨⟨collection, some predicate, some after⟩,
            ⟨mark :: predicate, second :: after, by simp, ⟨mark, rfl, isWhere⟩,
              ⟨second, rfl, isArrow⟩⟩, part, by simp [test, nothing], by simp [value, present]⟩
        · exact .inl (by simpa using malformed)
  · rcases projection_or_malformed part.paired isArrow behind with ⟨value, present⟩ | malformed
    · exact .inr ⟨⟨collection, none, some after⟩,
        ⟨[], mark :: after, by simp, rfl, ⟨mark, rfl, isArrow⟩⟩, part, by simp,
        by simp [value, present]⟩
    · exact .inl malformed

theorem isDivider_of_mark {mark : Mark} {token : Token} (kind : token.kind = mark.kind) :
    token.isDivider = true := by
  cases mark <;> simp [Token.isDivider, Token.isComma, Token.isWhere, Token.isFatArrow, kind,
    Mark.kind]

/-- What a scan finds of a part behind its mark: the mark, if it looks for it. -/
theorem topLevel_marked {selects : Token → Bool} {mark : Mark} {part : Option (List Token)}
    {tokens : List Token} (marked : Marked mark part tokens)
    (parts : ∀ body ∈ part, IsPart body ∧ body ≠ [])
    (divides : ∀ token, selects token = true → token.isDivider = true) (wanted : Bool)
    (here : ∀ token : Token, token.kind = mark.kind → selects token = wanted) :
    Paired tokens ∧
      topLevel selects tokens = if wanted then part.toList.map fun _ => 0 else [] := by
  cases part with
  | none =>
    obtain rfl : tokens = [] := marked
    exact ⟨rfl, by cases wanted <;> rfl⟩
  | some body =>
    obtain ⟨token, rfl, kind⟩ := marked
    obtain ⟨part, -⟩ := parts body rfl
    have inner := Token.isInner_of_isDivider (isDivider_of_mark kind)
    rw [topLevel_cons inner, part.topLevel_eq_nil divides, here token kind]
    exact ⟨(Paired.cons_iff inner).2 part.paired, by simp⟩

/-- What a scan finds of a clause: the mark in front of its test and that in front of its value,
where it looks for them. -/
theorem IsClause.topLevel_eq {selects : Token → Bool} {clause : Clause} {middle behind : List Token}
    (isWhere : Marked .whereWord clause.predicate middle)
    (isArrow : Marked .fatArrow clause.projection behind)
    (is : IsClause (clause.collection ++ middle ++ behind) clause)
    (divides : ∀ token, selects token = true → token.isDivider = true) (tests values : Bool)
    (words : ∀ token : Token, token.kind = .keyword .whereWord → selects token = tests)
    (arrows : ∀ token : Token, token.kind = .fatArrow → selects token = values) :
    topLevel selects (clause.collection ++ middle ++ behind) =
      (if tests then clause.predicate.toList.map fun _ => clause.collection.length else []) ++
        if values then
          clause.projection.toList.map fun _ => clause.collection.length + middle.length
        else [] := by
  obtain ⟨paired, test⟩ := topLevel_marked isWhere is.predicate divides tests words
  obtain ⟨-, value⟩ := topLevel_marked isArrow is.projection divides values arrows
  have front : Paired (clause.collection ++ middle) := is.collection.paired.append_iff.2 paired
  rw [topLevel_append front, topLevel_append is.collection.paired,
    is.collection.topLevel_eq_nil divides, test, value]
  cases tests <;> cases values <;> simp

/-- The cuts at the marks of a clause give its parts. -/
private theorem cutClause_marks (name : String) {collection middle behind : List Token}
    {predicate projection : Option (List Token)} (isWhere : Marked .whereWord predicate middle)
    (isArrow : Marked .fatArrow projection behind) (tests : ∀ part ∈ predicate, part ≠ [])
    (values : ∀ part ∈ projection, part ≠ []) :
    cutClause name (collection ++ middle ++ behind) (predicate.map fun _ => collection.length)
        (projection.map fun _ => collection.length + middle.length) =
      .ok ⟨collection, predicate, projection⟩ := by
  have front : (collection ++ middle ++ behind).take (collection.length + middle.length) =
      collection ++ middle := by
    rw [← List.length_append, List.take_left]
  have back : (collection ++ middle ++ behind).drop (collection.length + middle.length + 1) =
      behind.drop 1 := by
    rw [← List.length_append, List.drop_length_add_append]
  rcases predicate with _ | predicate <;> rcases projection with _ | projection
  · obtain rfl : middle = [] := isWhere
    obtain rfl : behind = [] := isArrow
    simp [cutClause]
  · obtain rfl : middle = [] := isWhere
    obtain ⟨arrow, rfl, -⟩ := isArrow
    simp only [Option.map_none, Option.map_some, cutClause, front, back]
    simp [nonEmpty, values projection rfl, bind, Except.bind, pure, Except.pure]
  · obtain ⟨word, rfl, -⟩ := isWhere
    obtain rfl : behind = [] := isArrow
    simp [cutClause, nonEmpty, tests predicate rfl, bind, Except.bind, pure, Except.pure]
  · obtain ⟨word, rfl, -⟩ := isWhere
    obtain ⟨arrow, rfl, -⟩ := isArrow
    have ordered : ¬ collection.length + (word :: predicate).length < collection.length := by omega
    simp only [Option.map_some, cutClause, if_neg ordered, front, back]
    simp [nonEmpty, tests predicate rfl, values projection rfl, bind, Except.bind, pure,
      Except.pure]

/-- A clause is cut into its parts. -/
theorem IsClause.splitClause_eq {tokens : List Token} {clause : Clause}
    (is : IsClause tokens clause) (name : String) : splitClause name tokens = .ok clause := by
  obtain ⟨middle, behind, rfl, isWhere, isArrow⟩ := is.written
  have commas := @IsClause.topLevel_eq Token.isComma _ _ _ isWhere isArrow is
    (by simp +contextual [Token.isDivider]) false false (by simp +contextual [Token.isComma])
    (by simp +contextual [Token.isComma])
  have wheres := @IsClause.topLevel_eq Token.isWhere _ _ _ isWhere isArrow is
    (by simp +contextual [Token.isDivider]) true false (by simp +contextual [Token.isWhere])
    (by simp +contextual [Token.isWhere])
  have arrows := @IsClause.topLevel_eq Token.isFatArrow _ _ _ isWhere isArrow is
    (by simp +contextual [Token.isDivider]) false true (by simp +contextual [Token.isFatArrow])
    (by simp +contextual [Token.isFatArrow])
  have cut := @cutClause_marks name clause.collection _ _ _ _ isWhere isArrow
    (fun part member => (is.predicate part member).2)
    (fun part member => (is.projection part member).2)
  simp only [Bool.false_eq_true, ↓reduceIte, List.append_nil, List.nil_append]
    at commas wheres arrows
  have head (part : Option (List Token)) (place : Nat) :
      (part.toList.map fun _ => place).head? = part.map fun _ => place := by
    cases part <;> rfl
  have short (part : Option (List Token)) (place : Nat) :
      ¬ 1 < (part.toList.map fun _ => place).length := by
    cases part <;> simp
  rw [splitClause, commas, wheres, arrows]
  dsimp only
  rw [if_neg (short _ _), if_neg (short _ _), head, head, cut]

private theorem eq_singleton_of_mem {places : List Nat} {place : Nat} (short : places.length ≤ 1)
    (member : place ∈ places) : places = [place] := by
  match places, short, member with
  | [other], _, member => rw [List.mem_singleton.1 member]

/-- What stands behind a place of a cut is not empty, and the places are in order. -/
private theorem cutClause_eq_ok {name : String} {tokens : List Token} {clause : Clause}
    {whereAt arrowAt : Option Nat} (found : cutClause name tokens whereAt arrowAt = .ok clause) :
    (∀ place ∈ whereAt, (tokens.take (arrowAt.getD tokens.length)).drop (place + 1) ≠ []) ∧
      (∀ place ∈ arrowAt, tokens.drop (place + 1) ≠ []) ∧
      ∀ place ∈ whereAt, ∀ later ∈ arrowAt, place ≤ later := by
  rcases whereAt with _ | whereAt <;> rcases arrowAt with _ | arrowAt
  · simp
  · simp only [cutClause, bind_eq_ok, nonEmpty_eq_ok] at found
    obtain ⟨_, ⟨present, -⟩, -⟩ := found
    simpa using present
  · simp only [cutClause, bind_eq_ok, nonEmpty_eq_ok] at found
    obtain ⟨_, ⟨present, -⟩, -⟩ := found
    simpa using present
  · simp only [cutClause] at found
    split at found
    · cases found
    · rename_i ordered
      obtain ⟨_, test, found⟩ := bind_eq_ok.1 found
      obtain ⟨_, value, -⟩ := bind_eq_ok.1 found
      have test := (nonEmpty_eq_ok.1 test).1
      have value := (nonEmpty_eq_ok.1 value).1
      simp_all

theorem splitClause_eq_ok {name : String} {tokens : List Token} {clause : Clause}
    (found : splitClause name tokens = .ok clause) :
    topLevel Token.isComma tokens = [] ∧ (topLevel Token.isWhere tokens).length ≤ 1 ∧
      (topLevel Token.isFatArrow tokens).length ≤ 1 ∧
      cutClause name tokens (topLevel Token.isWhere tokens).head?
        (topLevel Token.isFatArrow tokens).head? = .ok clause := by
  unfold splitClause at found
  split at found
  · cases found
  · rename_i commas
    dsimp only at found
    split at found
    · cases found
    · rename_i wheres
      split at found
      · cases found
      · rename_i arrows
        exact ⟨commas, Nat.le_of_not_lt wheres, Nat.le_of_not_lt arrows, found⟩

private theorem mem_topLevel_mark {mark : Mark} {before : List Token} {token : Token}
    (after : List Token) (outside : Paired before) (kind : token.kind = mark.kind) :
    before.length ∈ topLevel mark.selects (before ++ token :: after) := by
  refine mem_topLevel outside (Token.isInner_of_isDivider (isDivider_of_mark kind)) ?_
  cases mark <;> simp [Mark.selects, Token.isWhere, Token.isFatArrow, kind, Mark.kind]

theorem MalformedClause.splitClause_ne {tokens : List Token} (malformed : MalformedClause tokens)
    (name : String) (clause : Clause) : splitClause name tokens ≠ .ok clause := by
  intro found
  obtain ⟨commas, wheres, arrows, cut⟩ := splitClause_eq_ok found
  obtain ⟨test, value, ordered⟩ := cutClause_eq_ok cut
  have only (mark : Mark) {place : Nat} (member : place ∈ topLevel mark.selects tokens) :
      topLevel mark.selects tokens = [place] := by
    cases mark with
    | whereWord => exact eq_singleton_of_mem wheres member
    | fatArrow => exact eq_singleton_of_mem arrows member
  have first (mark : Mark) {place : Nat} (member : place ∈ topLevel mark.selects tokens) :
      place ∈ (topLevel mark.selects tokens).head? := by
    rw [only mark member]
    rfl
  cases malformed with
  | @comma before after comma cut outside kind =>
    subst cut
    have member := @mem_topLevel Token.isComma _ after _ outside (by rw [kind]; rfl)
      (by simp [Token.isComma, kind])
    rw [commas] at member
    cases member
  | @repeated mark before between after one two cut outside further kind again =>
    have front : Paired (before ++ one :: between) :=
      outside.append_cons (Token.isInner_of_isDivider (isDivider_of_mark kind)) further
    have here := mem_topLevel_mark (between ++ two :: after) outside kind
    have there := mem_topLevel_mark after front again
    rw [List.append_assoc, List.cons_append, ← cut] at there
    rw [← cut] at here
    rw [only mark here, List.mem_singleton] at there
    simp at there
  | @arrowBeforeWhere before between after arrow word cut outside further isArrow isWhere =>
    have front : Paired (before ++ arrow :: between) :=
      outside.append_cons (by rw [isArrow]; rfl) further
    have here := @mem_topLevel_mark .fatArrow _ _ (between ++ word :: after) outside isArrow
    have there := @mem_topLevel_mark .whereWord _ _ after front isWhere
    rw [List.append_assoc, List.cons_append, ← cut] at there
    rw [← cut] at here
    have inOrder := ordered _ (first .whereWord there) _ (first .fatArrow here)
    simp only [List.length_append, List.length_cons] at inOrder
    omega
  | @emptyPredicate before after word cut outside isWhere nothing =>
    have here := @mem_topLevel_mark .whereWord _ _ after outside isWhere
    rw [← cut] at here
    apply test _ (first .whereWord here)
    rcases nothing with rfl | ⟨arrow, rest, rfl, isArrow⟩
    · apply List.drop_eq_nil_of_le
      simp [cut]
    · have front : Paired (before ++ [word]) := outside.append_cons (by rw [isWhere]; rfl) rfl
      have there := @mem_topLevel_mark .fatArrow _ _ rest front isArrow
      rw [List.append_assoc, List.singleton_append, ← cut] at there
      have arrowAt : (topLevel Token.isFatArrow tokens).head? = some (before ++ [word]).length :=
        first .fatArrow there
      rw [arrowAt]
      apply List.drop_eq_nil_of_le
      simp
  | @emptyProjection before arrow cut outside isArrow =>
    have here := @mem_topLevel_mark .fatArrow _ _ [] outside isArrow
    rw [← cut] at here
    apply value _ (first .fatArrow here)
    simp [cut]

/-- The fault is that the clause of the aggregation with this name is malformed. -/
def ClauseFault (name : String) (fault : Fault) : Prop :=
  ∃ cause, fault = .aggregationClause name cause

theorem nonEmpty_fault (name : String) (cause : ClauseCause) (tokens : List Token) :
    Ends (fun _ => True) (ClauseFault name) (nonEmpty name cause tokens) := by
  unfold nonEmpty
  split
  · exact ⟨_, rfl⟩
  · trivial

theorem splitClause_fault (name : String) (tokens : List Token) :
    Ends (fun _ => True) (ClauseFault name) (splitClause name tokens) := by
  have part := nonEmpty_fault name
  unfold splitClause cutClause
  split
  · exact ⟨_, rfl⟩
  · dsimp only
    split
    · exact ⟨_, rfl⟩
    · split
      · exact ⟨_, rfl⟩
      · split
        · trivial
        · exact (part _ _).bind fun _ _ => trivial
        · exact (part _ _).bind fun _ _ => trivial
        · split
          · exact ⟨_, rfl⟩
          · exact (part _ _).bind fun _ _ => (part _ _).bind fun _ _ => trivial

theorem MalformedClause.splitClause_eq {tokens : List Token} (malformed : MalformedClause tokens)
    (name : String) :
    ∃ cause, splitClause name tokens = .error (.aggregationClause name cause) := by
  cases found : splitClause name tokens with
  | ok clause => exact absurd found (malformed.splitClause_ne name clause)
  | error fault =>
    obtain ⟨cause, rfl⟩ := (splitClause_fault name tokens).error found
    exact ⟨cause, rfl⟩

/-- Arguments with paired brackets are cut as the clause that they are. -/
theorem splitClause_eq_ok_iff {tokens : List Token} (paired : Paired tokens) {name : String}
    {clause : Clause} : splitClause name tokens = .ok clause ↔ IsClause tokens clause := by
  refine ⟨fun found => ?_, fun is => is.splitClause_eq name⟩
  rcases malformed_or_isClause paired with malformed | ⟨other, is⟩
  · exact absurd found (malformed.splitClause_ne name clause)
  · rw [is.splitClause_eq name] at found
    cases found
    exact is

/-- The tokens are the name of a parameter, `=>` and the body of the key. -/
def IsKey (tokens : List Token) (key : Key) : Prop :=
  key.body ≠ [] ∧ ∃ parameter arrow, tokens = parameter :: arrow :: key.body ∧
    parameter.kind = .ident key.parameter ∧ arrow.kind = .fatArrow

/-- The arguments are a key, with the clause of its source in front of it unless the receiver is
the source. -/
inductive IsKeyed : List (List Token) → Clause → Key → Prop where
  | own {tokens : List Token} {key : Key} (is : IsKey tokens key) :
      IsKeyed [tokens] ⟨[], none, none⟩ key
  | given {source tokens : List Token} {clause : Clause} {key : Key}
      (clauseIs : IsClause source clause) (plain : clause.projection = none)
      (is : IsKey tokens key) :
      IsKeyed [source, tokens] clause key

private theorem splitKey_cons {name : String} {key : Key} {parameter arrow : Token}
    (named : parameter.kind = .ident key.parameter) (isArrow : arrow.kind = .fatArrow) :
    splitKey name (parameter :: arrow :: key.body) =
      if key.body = [] then .error (.aggregationClause name .emptyKey) else .ok key := by
  have outside : Paired [parameter] := (Paired.cons_iff (by rw [named]; rfl)).2 rfl
  have found := @mem_topLevel_mark .fatArrow _ _ key.body outside isArrow
  have nonempty : topLevel Token.isFatArrow (parameter :: arrow :: key.body) ≠ [] :=
    List.ne_nil_of_mem found
  simp [splitKey, nonempty, named, isArrow, Kind.name?, Token.isFatArrow]

theorem splitKey_eq_ok_iff {name : String} {tokens : List Token} {key : Key} :
    splitKey name tokens = .ok key ↔ IsKey tokens key := by
  constructor
  · intro found
    obtain ⟨parameter, arrow, rfl, named, isArrow⟩ := splitKey_eq_ok found
    rw [splitKey_cons named isArrow] at found
    split at found
    · cases found
    · rename_i present
      exact ⟨present, parameter, arrow, rfl, named, isArrow⟩
  · rintro ⟨present, parameter, arrow, rfl, named, isArrow⟩
    rw [splitKey_cons named isArrow, if_neg present]

theorem splitKeyed_eq_ok_iff {name : String} {parts : List (List Token)} {clause : Clause}
    {key : Key} (paired : ∀ part ∈ parts, Paired part) :
    splitKeyed name parts = .ok (clause, key) ↔ IsKeyed parts clause key := by
  constructor
  · intro found
    rcases splitKeyed_eq_ok found with
      ⟨body, rfl, rfl, split⟩ | ⟨source, body, rfl, cut, plain, split⟩
    · exact .own (splitKey_eq_ok_iff.1 split)
    · exact .given ((splitClause_eq_ok_iff (paired source (by simp))).1 cut) plain
        (splitKey_eq_ok_iff.1 split)
  · intro keyed
    cases keyed with
    | own is =>
      rw [splitKeyed, splitKey_eq_ok_iff.2 is]
      rfl
    | given clauseIs plain is =>
      simp only [splitKeyed, clauseIs.splitClause_eq name, splitKey_eq_ok_iff.2 is, bind,
        Except.bind, plain]
      rfl

theorem splitKey_fault (name : String) (tokens : List Token) :
    Ends (fun _ => True) (ClauseFault name) (splitKey name tokens) := by
  unfold splitKey
  split
  · exact ⟨_, rfl⟩
  · split
    · split
      · split
        · exact ⟨_, rfl⟩
        · split
          · exact ⟨_, rfl⟩
          · trivial
      · exact ⟨_, rfl⟩
    · exact ⟨_, rfl⟩

theorem splitKeyed_fault (name : String) (parts : List (List Token)) :
    Ends (fun _ => True) (ClauseFault name) (splitKeyed name parts) := by
  unfold splitKeyed
  split
  · exact (splitKey_fault name _).bind fun _ _ => trivial
  · apply (splitClause_fault name _).bind
    intro clause _
    split
    · exact ⟨_, rfl⟩
    · exact (splitKey_fault name _).bind fun _ _ => trivial
  · exact ⟨_, rfl⟩

/-- Arguments of another shape are a malformed clause. -/
theorem splitKeyed_eq_error {parts : List (List Token)} (paired : ∀ part ∈ parts, Paired part)
    (other : ¬∃ clause key, IsKeyed parts clause key) (name : String) :
    ∃ cause, splitKeyed name parts = .error (.aggregationClause name cause) := by
  cases found : splitKeyed name parts with
  | ok pair => exact absurd ⟨_, _, (splitKeyed_eq_ok_iff paired).1 found⟩ other
  | error fault =>
    obtain ⟨cause, rfl⟩ := (splitKeyed_fault name parts).error found
    exact ⟨cause, rfl⟩

end Aggregation

end Formulary
