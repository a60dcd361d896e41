import Mathlib
import Formulary.Proofs.Reading

set_option autoImplicit false

namespace Formulary

/-- Somewhere among the tokens this name, in any mix of upper and lower case, is followed by an open
round bracket. -/
def Calls (name : String) (tokens : List Token) : Prop :=
  ∃ before head opening after spelled, tokens = before ++ head :: opening :: after ∧
    head.kind = .ident spelled ∧ spelled.toUpper = name ∧ opening.kind = .openParen

section Calls

variable {name : String}

@[simp] theorem not_calls_nil : ¬ Calls name [] := by
  rintro ⟨before, head, opening, after, _, same, -⟩
  cases before <;> cases same

theorem calls_cons {token : Token} {tokens : List Token} :
    Calls name (token :: tokens) ↔
      (∃ opening after spelled, tokens = opening :: after ∧ token.kind = .ident spelled ∧
        spelled.toUpper = name ∧ opening.kind = .openParen) ∨ Calls name tokens := by
  constructor
  · rintro ⟨before, head, opening, after, spelled, same, kind, upper, opens⟩
    cases before with
    | nil =>
      cases same
      exact .inl ⟨opening, after, spelled, rfl, kind, upper, opens⟩
    | cons first before =>
      cases same
      exact .inr ⟨before, head, opening, after, spelled, rfl, kind, upper, opens⟩
  · rintro (⟨opening, after, spelled, rfl, kind, upper, opens⟩ |
      ⟨before, head, opening, after, spelled, rfl, kind, upper, opens⟩)
    · exact ⟨[], token, opening, after, spelled, rfl, kind, upper, opens⟩
    · exact ⟨token :: before, head, opening, after, spelled, rfl, kind, upper, opens⟩

theorem calls_cons_of_notNext {token : Token} {tokens : List Token}
    (stops : NotNext (· = .openParen) tokens) :
    Calls name (token :: tokens) ↔ Calls name tokens := by
  rw [calls_cons, or_iff_right]
  rintro ⟨opening, after, _, rfl, -, -, opens⟩
  exact notNext_cons.1 stops opens

theorem calls_cons_of_not_ident {token : Token} {tokens : List Token}
    (other : token.kind.name? = none) : Calls name (token :: tokens) ↔ Calls name tokens := by
  rw [calls_cons, or_iff_right]
  rintro ⟨_, _, spelled, -, kind, -⟩
  rw [kind] at other
  cases other

/-- A call needs both of its tokens, so none is made by putting two lists together unless a bracket
opens the second. -/
theorem calls_append {left right : List Token} (stops : NotNext (· = .openParen) right) :
    Calls name (left ++ right) ↔ Calls name left ∨ Calls name right := by
  induction left with
  | nil => simp
  | cons token left ih =>
    rw [List.cons_append, calls_cons, calls_cons, ih, or_assoc]
    refine or_congr_left ?_
    constructor
    · rintro ⟨opening, after, spelled, same, kind, upper, opens⟩
      cases left with
      | nil =>
        rw [List.nil_append] at same
        rw [same] at stops
        exact absurd opens (notNext_cons.1 stops)
      | cons second left =>
        cases same
        exact ⟨_, left, spelled, rfl, kind, upper, opens⟩
    · rintro ⟨opening, after, spelled, rfl, kind, upper, opens⟩
      exact ⟨opening, after ++ right, spelled, rfl, kind, upper, opens⟩

/-- Two lists with a token between them that is neither a name nor a bracket. -/
theorem calls_between {left right : List Token} {token : Token} (other : token.kind.name? = none)
    (closed : token.kind ≠ .openParen) :
    Calls name (left ++ token :: right) ↔ Calls name left ∨ Calls name right := by
  rw [calls_append (notNext_cons.2 closed), calls_cons_of_not_ident other]

theorem calls_head {head opening : Token} {tokens : List Token} {spelled : String}
    (kind : head.kind = .ident spelled) (opens : opening.kind = .openParen) :
    Calls name (head :: opening :: tokens) ↔ name = spelled.toUpper ∨ Calls name tokens := by
  rw [calls_cons, calls_cons_of_not_ident (by rw [opens]; rfl)]
  refine or_congr_left ?_
  constructor
  · rintro ⟨_, _, _, -, same, upper, -⟩
    rw [kind] at same
    cases same
    exact upper.symm
  · rintro rfl
    exact ⟨opening, tokens, spelled, rfl, kind, rfl, opens⟩

/-- Brackets of either kind around a list add no call. -/
theorem calls_bracketed {opening closing : Token} {tokens : List Token}
    (opens : opening.kind.isOpening = true) (closes : closing.kind.isClosing = true) :
    Calls name (opening :: tokens ++ [closing]) ↔ Calls name tokens := by
  have front : opening.kind.name? = none := by
    cases kind : opening.kind <;> simp_all [Kind.isOpening, Kind.name?]
  have back : closing.kind.name? = none ∧ closing.kind ≠ .openParen := by
    cases kind : closing.kind <;> simp_all [Kind.isClosing, Kind.name?]
  rw [List.cons_append, calls_cons_of_not_ident front, calls_between back.1 back.2]
  simp

/-- A dotted reference calls nothing. -/
theorem not_calls_of_reference {tokens : List Token} {names : List String}
    (dotted : referenceNames? tokens = some names) : ¬ Calls name tokens := by
  fun_induction referenceNames? tokens generalizing names with
  | case1 => cases dotted
  | case2 token => simp [calls_cons]
  | case3 token mark rest isMark ih =>
    obtain ⟨_, -, dotted⟩ := Option.bind_eq_some_iff.1 dotted
    obtain ⟨others, found, -⟩ := Option.bind_eq_some_iff.1 dotted
    have other : mark.kind ≠ .openParen := by
      intro opens
      rw [opens] at isMark
      cases isMark
    have plain : mark.kind.name? = none := by
      cases kind : mark.kind <;> simp_all [Kind.isMemberMark, Kind.name?]
    rw [calls_cons_of_notNext (notNext_cons.2 other), calls_cons_of_not_ident plain]
    exact ih found
  | case4 => cases dotted

end Calls

/-- The needs are those of calls of these names, no more and no less. -/
structure NeedsFor (needs : Needs) (called : String → Prop) : Prop where
  blocks : ∀ name, name ∈ needs.blocks ↔ name ∈ Signature.buildingBlocks ∧ called name
  statistics : needs.statistics = true ↔ called "AVG" ∨ called "MODE"

namespace NeedsFor

variable {needs left right : Needs} {called first second : String → Prop}

theorem none (nothing : ∀ name, ¬ called name) : NeedsFor .none called := by
  constructor
  · intro name
    simp [Needs.none, nothing]
  · simp [Needs.none, nothing]

/-- Only the names of blocks and of two aggregations matter. -/
theorem congr_on
    (same : ∀ name ∈ "AVG" :: "MODE" :: Signature.buildingBlocks, called name ↔ first name)
    (given : NeedsFor needs called) : NeedsFor needs first := by
  constructor
  · intro name
    rw [given.blocks]
    exact and_congr_right fun block => same name (by simp [block])
  · rw [given.statistics, same "AVG" (by simp), same "MODE" (by simp)]

theorem congr (same : ∀ name, called name ↔ first name) (given : NeedsFor needs called) :
    NeedsFor needs first :=
  given.congr_on fun name _ => same name

theorem join (one : NeedsFor left first) (two : NeedsFor right second)
    (either : ∀ name, called name ↔ first name ∨ second name) :
    NeedsFor (left.join right) called := by
  constructor
  · intro name
    simp only [Needs.join, NameSet.mem_union, one.blocks, two.blocks, either, and_or_left]
  · simp only [Needs.join, Bool.or_eq_true, one.statistics, two.statistics, either]
    grind

@[simp] theorem join_none : NeedsFor (needs.join .none) called ↔ NeedsFor needs called := by
  constructor
  · rintro ⟨blocks, statistics⟩
    exact ⟨by simpa [Needs.join, Needs.none] using blocks,
      by simpa [Needs.join, Needs.none] using statistics⟩
  · intro given
    have nothing : NeedsFor .none fun _ => False := none fun _ => id
    exact given.join nothing (by simp)

end NeedsFor

namespace Reading

def needs : Reading → Needs
  | items exprs => Expr.needsAll exprs
  | collection expr => expr.needs
  | clause _ expr => Expr.needsOption expr
  | source expr predicate => expr.needs.join (Expr.needsOption predicate)
  | key _ expr => expr.needs
  | keyword _ expr => expr.needs
  | arguments _ expr => expr.needs

/-- The names that tokens with this reading call. The arguments of a call stand for the whole call,
so its name is among them. -/
def Called (reading : Reading) (tokens : List Token) (name : String) : Prop :=
  match reading with
  | arguments head _ => name = head.toUpper ∨ Calls name tokens
  | _ => Calls name tokens

end Reading

theorem toUpper_toUpper (s : String) : s.toUpper.toUpper = s.toUpper := by
  apply String.toList_injective
  simp [String.toUpper, String.toList_map, Function.comp_def]

namespace Signature

/-- The blocks are the functions of the table that are marked as such. -/
theorem isBuildingBlock_iff_of_mem :
    ∀ signature ∈ table, signature.isBuildingBlock = true ↔ signature.name ∈ buildingBlocks := by
  decide_cbv

theorem name_of_lookup? {name : String} {signature : Signature}
    (found : lookup? name = some signature) :
    signature ∈ table ∧ signature.name = name.toUpper := by
  rw [lookup?] at found
  exact ⟨List.mem_of_find?_eq_some found, by simpa using List.find?_some found⟩

/-- No function of the table is an aggregation that needs the statistics module. -/
theorem name_ne_of_mem : ∀ signature ∈ table, signature.name ≠ "AVG" ∧ signature.name ≠ "MODE" := by
  decide_cbv

end Signature

/-- A function of the table needs itself if it is a block. -/
theorem needsFor_callNeeds {name : String} {signature : Signature}
    (found : Signature.lookup? name = some signature) :
    NeedsFor (Expr.callNeeds signature) (· = name.toUpper) := by
  obtain ⟨member, spelled⟩ := Signature.name_of_lookup? found
  obtain ⟨notMean, notMode⟩ := Signature.name_ne_of_mem signature member
  have isBlock := Signature.isBuildingBlock_iff_of_mem signature member
  rw [spelled] at notMean notMode isBlock
  constructor
  · intro other
    rw [Expr.callNeeds]
    split
    · rename_i block
      simp only [NameSet.mem_insert, NameSet.not_mem_empty, or_false, spelled]
      constructor
      · rintro rfl
        exact ⟨isBlock.1 block, rfl⟩
      · exact And.right
    · rename_i plain
      simp only [Needs.none, NameSet.not_mem_empty, false_iff]
      rintro ⟨block, rfl⟩
      exact plain (isBlock.2 block)
  · rw [Expr.callNeeds]
    split <;> simp [Needs.none, notMean.symm, notMode.symm]

/-- A function of the table that is no block needs nothing itself. -/
theorem needsFor_none_of_shape {name : String} {signature : Signature}
    (found : Signature.lookup? name = some signature) (shape : signature.shape ≠ .buildingBlock) :
    NeedsFor .none (· = name.toUpper) := by
  have given := needsFor_callNeeds found
  rwa [Expr.callNeeds, if_neg (by simpa [Signature.isBuildingBlock] using shape)] at given

theorem needsFor_none_of_name {name : String}
    (plain : name.toUpper ∉ "AVG" :: "MODE" :: Signature.buildingBlocks) :
    NeedsFor .none (· = name.toUpper) := by
  simp only [List.mem_cons, not_or] at plain
  obtain ⟨notMean, notMode, noBlock⟩ := plain
  constructor
  · intro other
    simp only [Needs.none, NameSet.not_mem_empty, false_iff]
    rintro ⟨block, rfl⟩
    exact noBlock block
  · simp [Needs.none, Ne.symm notMean, Ne.symm notMode]

theorem needsFor_statistics {name : String} (known : name = "AVG" ∨ name = "MODE") :
    NeedsFor ⟨.empty, true⟩ (· = name.toUpper) := by
  have upper : name.toUpper = name := by rcases known with rfl | rfl <;> cbv
  have plain : name ∉ Signature.buildingBlocks := by rcases known with rfl | rfl <;> decide
  rw [upper]
  constructor
  · intro other
    simp only [NameSet.not_mem_empty, false_iff]
    rintro ⟨block, rfl⟩
    exact plain block
  · simpa [eq_comm] using known

theorem needsFor_reducer {name : String} {reducer : Reducer}
    (known : Reducer.ofName? name = some reducer) :
    NeedsFor ⟨.empty, reducer.needsStatistics⟩ (· = name.toUpper) := by
  unfold Reducer.ofName? at known
  split at known <;> cases known
  · exact needsFor_none_of_name (by decide_cbv)
  · exact needsFor_none_of_name (by decide_cbv)
  · exact needsFor_statistics (.inl rfl)
  · exact needsFor_statistics (.inr rfl)
  · exact needsFor_none_of_name (by decide_cbv)

theorem needsFor_extreme {name : String} {which : Extreme}
    (known : (name = "MINBY" ∧ which = .least) ∨ (name = "MAXBY" ∧ which = .greatest)) :
    NeedsFor .none (· = name.toUpper) := by
  rcases known with ⟨rfl, -⟩ | ⟨rfl, -⟩
  · exact needsFor_none_of_name (by decide_cbv)
  · exact needsFor_none_of_name (by decide_cbv)

/-- A clause starts with its mark, so nothing in front of it is called. -/
theorem Reads.clause_notNext {scope : Scope} {tokens : List Token} {mark : Mark}
    {expr : Option Expr} (reads : Reads scope tokens (.clause mark expr)) :
    NotNext (· = .openParen) tokens := by
  cases reads with
  | absent => exact notNext_nil
  | present kind _ => exact notNext_cons.2 (by rw [kind]; cases mark <;> simp [Mark.kind])

theorem Reads.keyword_notNext {scope : Scope} {tokens : List Token} {key : Call.ArgumentKey}
    {expr : Expr} (reads : Reads scope tokens (.keyword key expr)) :
    NotNext (· = .openParen) tokens := by
  cases reads with
  | keyword kind => exact notNext_cons.2 (by simp [kind])

/-- The two options of a slice call the same in either order. -/
theorem Reads.calls_options {scope : Scope} {tokens first second options : List Token}
    {axis index : Expr} {name : String} (along : Reads scope first (.keyword .axis axis))
    (place : Reads scope second (.keyword .index index))
    (order : options = first ++ second ∨ options = second ++ first) :
    Calls name (tokens ++ options) ↔
      (Calls name tokens ∨ Calls name first) ∨ Calls name second := by
  rcases order with rfl | rfl
  · rw [← List.append_assoc, calls_append place.keyword_notNext,
      calls_append along.keyword_notNext]
  · rw [← List.append_assoc, calls_append along.keyword_notNext,
      calls_append place.keyword_notNext, or_right_comm]

theorem Reads.key_notNext {scope : Scope} {tokens : List Token} {parameter : String} {expr : Expr}
    (reads : Reads scope tokens (.key parameter expr)) : NotNext (· = .openParen) tokens := by
  cases reads with
  | key named => exact notNext_cons.2 (by simp [named])

private theorem infix_separates {kind : Kind} {op : BinaryOp}
    (found : infixOperator? kind = some op) : kind.name? = none ∧ kind ≠ .openParen := by
  cases kind <;>
    simp_all [infixOperator?, Kind.name?, Grammar.comparisonOperator?, Grammar.sumOperator?,
      Grammar.productOperator?]

/-- A whole call calls what its arguments do, and its own name. The word of a conditional is no
name, but it is also no name that matters. -/
theorem called_iff {name called : String} {head opening closing : Token} {tokens : List Token}
    {expr : Expr} (kind : calledName? head.kind = some called) (opens : opening.kind = .openParen)
    (closes : closing.kind = .closeParen)
    (relevant : name ∈ "AVG" :: "MODE" :: Signature.buildingBlocks) :
    (Reading.arguments called.toUpper expr).Called tokens name ↔
      Calls name (head :: opening :: (tokens ++ [closing])) := by
  have inside : Calls name (tokens ++ [closing]) ↔ Calls name tokens := by
    rw [calls_between (by rw [closes]; rfl) (by simp [closes])]
    simp
  simp only [Reading.Called, toUpper_toUpper]
  cases spelled : head.kind with
  | ident spelled' =>
    rw [spelled] at kind
    cases kind
    rw [calls_head spelled opens, inside]
  | keyword word =>
    rw [spelled] at kind
    cases word <;> cases kind
    rw [calls_cons_of_not_ident (by rw [spelled]; rfl),
      calls_cons_of_not_ident (by rw [opens]; rfl), inside, or_iff_right]
    rintro rfl
    revert relevant
    decide_cbv
  | _ =>
    rw [spelled] at kind
    cases kind

theorem needsFor_top : NeedsFor .none (· = "TOPN".toUpper) :=
  needsFor_none_of_name (by decide_cbv)

theorem needsFor_item {expr : Expr} {called : String → Prop} :
    NeedsFor (Reading.items [expr]).needs called ↔ NeedsFor expr.needs called :=
  NeedsFor.join_none

theorem Mark.name?_kind (mark : Mark) : mark.kind.name? = none := by cases mark <;> rfl

theorem needs_of_literal? {name : String} {expr : Expr}
    (known : Grammar.literal? name = some expr) : expr.needs = .none := by
  unfold Grammar.literal? at known
  split at known <;> cases known <;> rfl

/-- Whatever the rules read needs what its tokens call. The induction follows the rules: each puts
the needs of its parts together, and its tokens are those of the parts with tokens between them that
call nothing. -/
theorem needsFor_of_reads {scope : Scope} {tokens : List Token} {reading : Reading}
    (reads : Reads scope tokens reading) : NeedsFor reading.needs (reading.Called tokens) := by
  -- Each rule joins the needs of its parts, and its tokens are theirs with separators between.
  induction reads with
  | number | text =>
    exact needsFor_item.2 (.none fun name => by simp [Reading.Called, calls_cons])
  | literal kind known =>
    rw [needsFor_item, needs_of_literal? known]
    exact .none fun name => by simp [Reading.Called, calls_cons]
  | reference dotted => exact needsFor_item.2 (.none fun name => not_calls_of_reference dotted)
  | group opens closes _ ih =>
    exact ih.congr fun name => (calls_bracketed (by rw [opens]; rfl) (by rw [closes]; rfl)).symm
  | tuple opens closes _ _ ih | list opens closes _ ih =>
    refine needsFor_item.2 (ih.congr fun name => ?_)
    exact (calls_bracketed (by rw [opens]; rfl) (by rw [closes]; rfl)).symm
  | nothing => exact .none fun name => not_calls_nil
  | more _ kind _ first others =>
    refine (needsFor_item.1 first).join others fun name => ?_
    exact calls_between (by rw [kind]; rfl) (by simp [kind])
  | not kind _ ih | negate kind _ ih | positive kind _ ih =>
    refine ih.congr fun name => ?_
    exact (calls_cons_of_not_ident (by rw [kind]; rfl)).symm
  | binary kind _ _ first second =>
    obtain ⟨other, closed⟩ := infix_separates kind
    refine needsFor_item.2 ((needsFor_item.1 first).join (needsFor_item.1 second) fun name => ?_)
    exact calls_between other closed
  | conditional isIf opens closes isThen isElse _ _ _ test first second =>
    have both := (needsFor_item.1 test).join (needsFor_item.1 first) fun name => Iff.rfl
    refine needsFor_item.2 (both.join (needsFor_item.1 second) fun name => ?_)
    simp only [Reading.Called]
    rw [calls_cons_of_not_ident (by rw [isIf]; rfl), calls_cons_of_not_ident (by rw [opens]; rfl),
      calls_between (by rw [closes]; rfl) (by simp [closes]),
      calls_cons_of_not_ident (by rw [isThen]; rfl),
      calls_between (by rw [isElse]; rfl) (by simp [isElse]), or_assoc]
  | call kind opens closes _ ih =>
    refine needsFor_item.2 (ih.congr_on fun name relevant => ?_)
    exact called_iff kind opens closes relevant
  | positional found _ shape _ _ ih =>
    exact ih.join (needsFor_callNeeds found) fun name => or_comm
  | overMember found _ shape _ kind named ih =>
    have own := needsFor_none_of_shape found (by simp [shape])
    refine NeedsFor.join_none.1 ((needsFor_item.1 ih).join own fun name => ?_)
    simp only [Reading.Called]
    rw [calls_between (by rw [kind]; rfl) (by simp [kind]), calls_cons_of_notNext notNext_nil]
    simp [or_comm]
  | keyword kind named _ equals _ ih =>
    refine (needsFor_item.1 ih).congr fun name => ?_
    simp only [Reading.Called]
    rw [calls_cons_of_not_ident (by rw [kind]; rfl),
      calls_cons_of_notNext (notNext_cons.2 (by simp [equals])),
      calls_cons_of_not_ident (by rw [equals]; rfl)]
  | wholeArray found _ shape _ ih =>
    have own := needsFor_none_of_shape found (by simp [shape])
    exact (needsFor_item.1 ih).join own fun name => or_comm
  | alongAxis found _ shape _ along target value =>
    have own := needsFor_none_of_shape found (by simp [shape])
    have both := (needsFor_item.1 target).join value fun name => Iff.rfl
    refine NeedsFor.join_none.1 (both.join own fun name => ?_)
    simp only [Reading.Called]
    rw [calls_append along.keyword_notNext, or_comm]
  | slice found _ shape _ _ along place order target first second =>
    have own := needsFor_none_of_shape found (by simp [shape])
    have front := (needsFor_item.1 target).join first fun name => Iff.rfl
    have all := front.join second fun name => Iff.rfl
    refine NeedsFor.join_none.1 (all.join own fun name => ?_)
    simp only [Reading.Called]
    rw [along.calls_options place order, or_comm]
  | receiver => exact .none fun name => not_calls_nil
  | named dotted => exact .none fun name => not_calls_of_reference dotted
  | computed _ _ ih => exact needsFor_item.1 ih
  | absent => exact .none fun name => not_calls_nil
  | present kind _ ih =>
    refine (needsFor_item.1 ih).congr fun name => ?_
    exact (calls_cons_of_not_ident (by rw [kind]; exact Mark.name?_kind _)).symm
  | reduce known _ test value _ collection predicate projection =>
    have front := collection.join predicate fun name => Iff.rfl
    have all := front.join projection fun name => Iff.rfl
    refine all.join (needsFor_reducer known) fun name => ?_
    simp only [Reading.Called]
    rw [calls_append value.clause_notNext, calls_append test.clause_notNext, or_comm]
  | ownSource => exact NeedsFor.join_none.2 (.none fun name => not_calls_nil)
  | givenSource _ test kind _ collection predicate =>
    refine collection.join predicate fun name => ?_
    simp only [Reading.Called]
    rw [calls_between (by rw [kind]; rfl) (by simp [kind]), calls_append test.clause_notNext]
    simp
  | key named kind _ ih =>
    refine (needsFor_item.1 ih).congr fun name => ?_
    simp only [Reading.Called]
    rw [calls_cons_of_notNext (notNext_cons.2 (by simp [kind])),
      calls_cons_of_not_ident (by rw [kind]; rfl)]
  | extreme known _ chosen source key =>
    have all := source.join key fun name => Iff.rfl
    refine NeedsFor.join_none.1 (all.join (needsFor_extreme known) fun name => ?_)
    simp only [Reading.Called]
    rw [calls_append chosen.key_notNext, or_comm]
  | top _ kind _ chosen count source key =>
    have front := source.join (needsFor_item.1 count) fun name => Iff.rfl
    have all := front.join key fun name => Iff.rfl
    refine NeedsFor.join_none.1 (all.join needsFor_top fun name => ?_)
    simp only [Reading.Called]
    rw [calls_between (by rw [kind]; rfl) (by simp [kind]), calls_append chosen.key_notNext]
    grind

namespace Formula

/-- The needs of an accepted formula are exact: its blocks are those that it calls, and it needs the
statistics module if and only if it calls one of the two aggregations that use it. -/
theorem compile_needs_exact {formula : String} {tokens : List Token} {fragment : Fragment}
    (lexed : tokenize formula = .ok tokens) (success : (compile formula).result = .ok fragment) :
    (∀ name, name ∈ fragment.needs.blocks ↔
        name ∈ Signature.buildingBlocks ∧ Calls name tokens) ∧
      (fragment.needs.statistics = true ↔ Calls "AVG" tokens ∨ Calls "MODE" tokens) := by
  obtain ⟨expr, parsed, rfl⟩ := compile_eq_ok.1 success
  have given : NeedsFor expr.needs (Calls · tokens) := by
    obtain ⟨found, same, ⟨rfl, rfl⟩ | reads⟩ := reads_of_parse parsed
    · rw [lexed] at same
      cases same
      exact .none fun name => not_calls_nil
    · rw [lexed] at same
      cases same
      exact needsFor_item.1 (needsFor_of_reads reads)
  exact ⟨given.blocks, given.statistics⟩

/-- A block inside an aggregation, spelled in lower case. -/
theorem compile_needs_exact_nested :
    ∃ tokens fragment, tokenize "AVG(x => shift(a, 1))" = .ok tokens ∧
      (compile "AVG(x => shift(a, 1))").result = .ok fragment ∧
      fragment.needs.blocks.toList = ["SHIFT"] ∧ fragment.needs.statistics = true ∧
      (∀ name, name ∈ fragment.needs.blocks ↔
        name ∈ Signature.buildingBlocks ∧ Calls name tokens) ∧
      (fragment.needs.statistics = true ↔ Calls "AVG" tokens ∨ Calls "MODE" tokens) := by
  have lexed : tokenize "AVG(x => shift(a, 1))" = .ok [⟨.ident "AVG", 0, 3⟩, ⟨.openParen, 3, 4⟩,
      ⟨.ident "x", 4, 5⟩, ⟨.fatArrow, 6, 8⟩, ⟨.ident "shift", 9, 14⟩, ⟨.openParen, 14, 15⟩,
      ⟨.ident "a", 15, 16⟩, ⟨.comma, 16, 17⟩, ⟨.number "1", 18, 19⟩, ⟨.closeParen, 19, 20⟩,
      ⟨.closeParen, 20, 21⟩] := eq_ok_of_toOption (by decide +kernel)
  have success : (compile "AVG(x => shift(a, 1))").result =
      .ok ⟨"statistics.mean(SHIFT(item.a, 1) for item in self.x)",
        ⟨NameSet.empty.insert "SHIFT", true⟩⟩ := eq_ok_of_toOption (by decide +kernel)
  exact ⟨_, _, lexed, success, rfl, rfl, compile_needs_exact lexed success⟩

end Formula

end Formulary
