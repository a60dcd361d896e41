import Formulary.Proofs.Readers
import Formulary.Proofs.Splits

set_option autoImplicit false

namespace Formulary.Operators

/-- The levels whose operands stand in a row, with operators between them. -/
inductive Loop where
  | disjunction
  | conjunction
  | sum
  | product
  deriving DecidableEq, Repr

/-- The levels of the grammar, from the loosest operator to the tightest. -/
inductive Level where
  | loop (kind : Loop)
  | negation
  | comparison
  | signed
  | power
  | primary
  deriving DecidableEq, Repr

namespace Loop

/-- The operator that a token writes between the operands of a level. -/
def operator? : Loop → Kind → Option BinaryOp
  | disjunction, .keyword .orWord => some .or
  | conjunction, .keyword .andWord => some .and
  | sum, .plus => some .add
  | sum, .minus => some .subtract
  | product, .star => some .multiply
  | product, .slash => some .divide
  | _, _ => none

/-- The level of the operands. -/
def operand : Loop → Level
  | disjunction => .loop conjunction
  | conjunction => .negation
  | sum => .loop product
  | product => .signed

end Loop

/-- The operator that a token writes between the two sides of a comparison. -/
def comparison? : Kind → Option BinaryOp
  | .equal => some .equal
  | .equalEqual => some .equal
  | .notEqual => some .notEqual
  | .less => some .less
  | .lessEqual => some .lessEqual
  | .greater => some .greater
  | .greaterEqual => some .greaterEqual
  | .keyword .inWord => some .isIn
  | _ => none

/-- A formula of operators as it is written. -/
inductive Tree where
  | number (digits : String)
  | text (literal : String)
  | name (name : String)
  | group (inside : Tree)
  | not (operand : Tree)
  | minus (operand : Tree)
  | plus (operand : Tree)
  | binary (op : BinaryOp) (left right : Tree)
  /-- An operator that is called by its name. -/
  | applied (op : BinaryOp) (left right : Tree)
  deriving DecidableEq, Repr

/-- The operand that a single token is. -/
def Tree.ofKind? : Kind → Option Tree
  | .number digits => some (number digits)
  | .string literal => some (text literal)
  | .ident spelled => some (name spelled)
  | _ => none

/-- What a list of tokens is a derivation of. -/
inductive Part where
  | whole (level : Level) (tree : Tree)
  /-- The operators and operands of a level that follow the first operand, which makes `left` into
  `tree`. -/
  | rest (loop : Loop) (left tree : Tree)

/-- The name of the function that an operator is called by, if it is one of `calledOperators`. -/
def functionName : BinaryOp → String
  | .add => "ADD"
  | .subtract => "SUBTRACT"
  | .multiply => "MULTIPLY"
  | .divide => "DIVIDE"
  | .power => "POWER"
  | _ => ""

def calledOperators : List BinaryOp := [.add, .subtract, .multiply, .divide, .power]

/-- The operator that a name calls, in any mix of upper and lower case. -/
def calledOperator? (name : String) : Option BinaryOp :=
  calledOperators.find? (functionName · == name.toUpper)

/-- The grammar of operators. With `calls`, an operator may also be called by its name. -/
inductive Derives (calls : Bool) : Part → List Token → Prop where
  | atom {token : Token} {tree : Tree} (found : Tree.ofKind? token.kind = some tree) :
      Derives calls (.whole .primary tree) [token]
  | group {opening closing : Token} {tokens : List Token} {tree : Tree}
      (opens : opening.kind = .openParen) (closes : closing.kind = .closeParen)
      (inside : Derives calls (.whole (.loop .disjunction) tree) tokens) :
      Derives calls (.whole .primary (.group tree)) (opening :: (tokens ++ [closing]))
  | applied {head opening comma closing : Token} {name : String} {op : BinaryOp}
      {left right : Tree} {before behind : List Token} (allowed : calls = true)
      (kind : head.kind = .ident name) (called : calledOperator? name = some op)
      (opens : opening.kind = .openParen) (separates : comma.kind = .comma)
      (closes : closing.kind = .closeParen)
      (first : Derives calls (.whole (.loop .sum) left) before)
      (second : Derives calls (.whole (.loop .sum) right) behind) :
      Derives calls (.whole .primary (.applied op left right))
        (head :: opening :: (before ++ comma :: (behind ++ [closing])))
  | base {tokens : List Token} {tree : Tree}
      (operand : Derives calls (.whole .primary tree) tokens) :
      Derives calls (.whole .power tree) tokens
  | raised {caret : Token} {before behind : List Token} {left right : Tree}
      (first : Derives calls (.whole .primary left) before) (kind : caret.kind = .caret)
      (second : Derives calls (.whole .signed right) behind) :
      Derives calls (.whole .power (.binary .power left right)) (before ++ caret :: behind)
  | unsigned {tokens : List Token} {tree : Tree}
      (operand : Derives calls (.whole .power tree) tokens) :
      Derives calls (.whole .signed tree) tokens
  | minus {sign : Token} {tokens : List Token} {tree : Tree} (kind : sign.kind = .minus)
      (operand : Derives calls (.whole .signed tree) tokens) :
      Derives calls (.whole .signed (.minus tree)) (sign :: tokens)
  | plus {sign : Token} {tokens : List Token} {tree : Tree} (kind : sign.kind = .plus)
      (operand : Derives calls (.whole .signed tree) tokens) :
      Derives calls (.whole .signed (.plus tree)) (sign :: tokens)
  | alone {tokens : List Token} {tree : Tree}
      (operand : Derives calls (.whole (.loop .sum) tree) tokens) :
      Derives calls (.whole .comparison tree) tokens
  | compared {sign : Token} {op : BinaryOp} {before behind : List Token} {left right : Tree}
      (first : Derives calls (.whole (.loop .sum) left) before)
      (found : comparison? sign.kind = some op)
      (second : Derives calls (.whole (.loop .sum) right) behind) :
      Derives calls (.whole .comparison (.binary op left right)) (before ++ sign :: behind)
  | positive {tokens : List Token} {tree : Tree}
      (operand : Derives calls (.whole .comparison tree) tokens) :
      Derives calls (.whole .negation tree) tokens
  | not {word : Token} {tokens : List Token} {tree : Tree} (kind : word.kind = .keyword .notWord)
      (operand : Derives calls (.whole .negation tree) tokens) :
      Derives calls (.whole .negation (.not tree)) (word :: tokens)
  | chain {loop : Loop} {before behind : List Token} {left tree : Tree}
      (first : Derives calls (.whole loop.operand left) before)
      (others : Derives calls (.rest loop left tree) behind) :
      Derives calls (.whole (.loop loop) tree) (before ++ behind)
  | done {loop : Loop} {tree : Tree} : Derives calls (.rest loop tree tree) []
  | step {loop : Loop} {token : Token} {op : BinaryOp} {before behind : List Token}
      {left right tree : Tree} (found : loop.operator? token.kind = some op)
      (next : Derives calls (.whole loop.operand right) before)
      (others : Derives calls (.rest loop (.binary op left right) tree) behind) :
      Derives calls (.rest loop left tree) (token :: (before ++ behind))

namespace Level

/-- The levels in order, the tightest first. -/
def rank : Level → Nat
  | .primary => 0
  | .power => 1
  | .signed => 2
  | .loop .product => 3
  | .loop .sum => 4
  | .comparison => 5
  | .negation => 6
  | .loop .conjunction => 7
  | .loop .disjunction => 8

/-- The rank of the tightest level whose expressions can start with a token. -/
def startRank? : Kind → Option Nat
  | .number _ => some 0
  | .string _ => some 0
  | .ident _ => some 0
  | .openParen => some 0
  | .minus => some 2
  | .plus => some 2
  | .keyword .notWord => some 6
  | _ => none

/-- The rank of the tightest level whose expressions a token carries on. -/
def carryRank? : Kind → Option Nat
  | .openParen => some 0
  | .dot => some 0
  | .arrow => some 0
  | .caret => some 1
  | .star => some 3
  | .slash => some 3
  | .plus => some 4
  | .minus => some 4
  | .keyword .andWord => some 7
  | .keyword .orWord => some 8
  | kind => (comparison? kind).map fun _ => 5

/-- What follows does not carry an expression of the level on. -/
def Stops (level : Level) (tokens : List Token) : Prop :=
  NotNext (fun kind => ∃ rank ∈ carryRank? kind, rank ≤ level.rank) tokens

theorem Stops.tighter {level other : Level} {tokens : List Token} (stops : level.Stops tokens)
    (le : other.rank ≤ level.rank) : other.Stops tokens := by
  intro token next carried
  obtain ⟨rank, found, small⟩ := carried
  exact stops token next ⟨rank, found, Nat.le_trans small le⟩

theorem stops_nil {level : Level} : level.Stops [] := notNext_nil

/-- A token that carries looser levels on only. -/
theorem stops_cons {level : Level} {token : Token} {tokens : List Token} {rank : Nat}
    (found : carryRank? token.kind = some rank) (looser : level.rank < rank) :
    level.Stops (token :: tokens) := by
  apply notNext_cons.2
  rintro ⟨other, same, small⟩
  rw [found] at same
  cases same
  omega

private theorem stops_cons_of_none {level : Level} {token : Token} {tokens : List Token}
    (found : carryRank? token.kind = none) : level.Stops (token :: tokens) := by
  apply notNext_cons.2
  rintro ⟨other, same, -⟩
  rw [found] at same
  cases same

theorem stops_closeParen {level : Level} {token : Token} {tokens : List Token}
    (kind : token.kind = .closeParen) : level.Stops (token :: tokens) :=
  stops_cons_of_none (by rw [kind]; rfl)

theorem stops_comma {level : Level} {token : Token} {tokens : List Token}
    (kind : token.kind = .comma) : level.Stops (token :: tokens) :=
  stops_cons_of_none (by rw [kind]; rfl)

theorem not_stops_cons {level : Level} {token : Token} {tokens : List Token} (rank : Nat)
    (found : carryRank? token.kind = some rank) (le : rank ≤ level.rank) :
    ¬ level.Stops (token :: tokens) :=
  fun stops => notNext_cons.1 stops ⟨rank, found, le⟩

/-- What ends an expression is no token that would carry it on. -/
theorem Stops.notNext {level : Level} {tokens : List Token} {rank : Nat} {test : Kind → Prop}
    (stops : level.Stops tokens) (carried : ∀ kind, test kind → carryRank? kind = some rank)
    (le : rank ≤ level.rank) : NotNext test tokens :=
  fun token next kind => stops token next ⟨rank, carried _ kind, le⟩

theorem rank_operand (loop : Loop) : loop.operand.rank < (Level.loop loop).rank := by
  cases loop <;> decide

theorem carryRank?_of_operator? {loop : Loop} {kind : Kind} {op : BinaryOp}
    (found : loop.operator? kind = some op) : carryRank? kind = some (Level.loop loop).rank := by
  unfold Loop.operator? at found
  split at found <;> cases found <;> rfl

theorem carryRank?_caret {kind : Kind} (caret : kind = .caret) :
    carryRank? kind = some Level.power.rank := by
  rw [caret]
  rfl

theorem carryRank?_openParen {kind : Kind} (opening : kind = .openParen) :
    carryRank? kind = some Level.primary.rank := by
  rw [opening]
  rfl

theorem carryRank?_memberMark {kind : Kind} (mark : kind.isMemberMark = true) :
    carryRank? kind = some Level.primary.rank := by
  simp only [Kind.isMemberMark] at mark
  split at mark <;> cases mark <;> rfl

/-- A sign does not change what carries an operand on. -/
theorem Stops.signed {tokens : List Token} (stops : Level.power.Stops tokens) :
    Level.signed.Stops tokens := by
  intro token next carried
  obtain ⟨rank, found, small⟩ := carried
  have other : rank ≠ Level.signed.rank := by
    rintro rfl
    unfold carryRank? at found
    split at found <;> simp_all [rank]
  have tight : rank ≤ Level.power.rank := by
    change rank ≤ 2 at small
    change rank ≠ 2 at other
    change rank ≤ 1
    omega
  exact stops token next ⟨rank, found, tight⟩

theorem carryRank?_of_comparison? {kind : Kind} {op : BinaryOp}
    (found : comparison? kind = some op) :
    carryRank? kind = some Level.comparison.rank := by
  unfold comparison? at found
  split at found <;> cases found <;> rfl

end Level

/-- The first token is one that an expression of this rank can start with. -/
def StartsAt (rank : Nat) (tokens : List Token) : Prop :=
  ∃ token more own, tokens = token :: more ∧ Level.startRank? token.kind = some own ∧ own ≤ rank

namespace StartsAt

theorem cons {rank : Nat} {token : Token} {tokens : List Token} (own : Nat)
    (found : Level.startRank? token.kind = some own) (le : own ≤ rank) :
    StartsAt rank (token :: tokens) :=
  ⟨token, tokens, own, rfl, found, le⟩

theorem looser {rank wider : Nat} {tokens : List Token} (starts : StartsAt rank tokens)
    (le : rank ≤ wider) : StartsAt wider tokens := by
  obtain ⟨token, more, own, rfl, found, small⟩ := starts
  exact cons own found (Nat.le_trans small le)

theorem ne_nil {rank : Nat} {tokens : List Token} (starts : StartsAt rank tokens) :
    tokens ≠ [] := by
  obtain ⟨token, more, own, rfl, -⟩ := starts
  exact List.cons_ne_nil token more

theorem append {rank : Nat} {tokens : List Token} (starts : StartsAt rank tokens)
    (others : List Token) : StartsAt rank (tokens ++ others) := by
  obtain ⟨token, more, own, rfl, found, small⟩ := starts
  exact cons own found small

/-- Tokens that start an expression do not start with a token that only looser levels start with. -/
theorem clash {rank own : Nat} {token : Token} {tokens rest more : List Token}
    (starts : StartsAt rank tokens) (same : tokens ++ rest = token :: more)
    (found : Level.startRank? token.kind = some own) (less : rank < own) : False := by
  obtain ⟨first, others, small, rfl, here, le⟩ := starts
  cases same
  rw [found] at here
  cases here
  omega

theorem notNext {rank own : Nat} {tokens : List Token} {test : Kind → Prop}
    (starts : StartsAt rank tokens)
    (later : ∀ kind, test kind → Level.startRank? kind = some own) (less : rank < own) :
    NotNext test tokens := by
  intro token next kind
  obtain ⟨more, rfl⟩ := List.head?_eq_some_iff.1 next
  exact starts.clash (List.append_nil _) (later _ kind) less

end StartsAt

namespace Derives

variable {calls : Bool}

/-- An operand alone is an expression of the level above. -/
theorem single {loop : Loop} {tree : Tree} {tokens : List Token}
    (operand : Derives calls (.whole loop.operand tree) tokens) :
    Derives calls (.whole (.loop loop) tree) tokens := by
  simpa using Derives.chain operand .done

/-- One more operand behind those that follow the first. -/
theorem rest_snoc {loop : Loop} {token : Token} {op : BinaryOp} {start left right : Tree}
    {tokens behind : List Token} (derives : Derives calls (.rest loop start left) tokens)
    (found : loop.operator? token.kind = some op)
    (next : Derives calls (.whole loop.operand right) behind) :
    Derives calls (.rest loop start (.binary op left right)) (tokens ++ token :: behind) := by
  generalize shape : Part.rest loop start left = part at derives
  induction derives generalizing start with
  | done =>
    cases shape
    simpa using Derives.step found next .done
  | step taken operand others _ ih =>
    cases shape
    simpa using Derives.step taken operand (ih rfl)
  | _ => cases shape

/-- An operator and an operand behind an expression of its level. -/
theorem snoc {loop : Loop} {token : Token} {op : BinaryOp} {left right : Tree}
    {before behind : List Token} (first : Derives calls (.whole (.loop loop) left) before)
    (found : loop.operator? token.kind = some op)
    (second : Derives calls (.whole loop.operand right) behind) :
    Derives calls (.whole (.loop loop) (.binary op left right)) (before ++ token :: behind) := by
  cases first with
  | chain operand others =>
    rw [List.append_assoc]
    exact .chain operand (others.rest_snoc found second)

/-- An expression starts with a token that its level can start with. -/
theorem startsAt {level : Level} {tree : Tree} {tokens : List Token}
    (derives : Derives calls (.whole level tree) tokens) : StartsAt level.rank tokens := by
  generalize shape : Part.whole level tree = part at derives
  induction derives generalizing level tree with
  | atom found =>
    cases shape
    refine .cons 0 ?_ (Nat.zero_le _)
    simp only [Tree.ofKind?] at found
    split at found <;> simp_all [Level.startRank?]
  | group opens =>
    cases shape
    exact .cons 0 (by rw [opens]; rfl) (Nat.zero_le _)
  | applied _ kind =>
    cases shape
    exact .cons 0 (by rw [kind]; rfl) (Nat.zero_le _)
  | base operand ih =>
    cases shape
    exact (ih rfl).looser (by decide)
  | raised first kind second ih =>
    cases shape
    exact ((ih rfl).append _).looser (by decide)
  | unsigned operand ih =>
    cases shape
    exact (ih rfl).looser (by decide)
  | minus kind =>
    cases shape
    exact .cons 2 (by rw [kind]; rfl) (Nat.le_refl _)
  | plus kind =>
    cases shape
    exact .cons 2 (by rw [kind]; rfl) (Nat.le_refl _)
  | alone operand ih =>
    cases shape
    exact (ih rfl).looser (by decide)
  | compared first found second ih =>
    cases shape
    exact ((ih rfl).append _).looser (by decide)
  | positive operand ih =>
    cases shape
    exact (ih rfl).looser (by decide)
  | not kind =>
    cases shape
    exact .cons 6 (by rw [kind]; rfl) (Nat.le_refl _)
  | @chain loop before behind left tree first others ih =>
    cases shape
    exact ((ih rfl).append _).looser (Nat.le_of_lt (Level.rank_operand loop))
  | done => cases shape
  | step => cases shape

/-- What follows an operand of a level is either one of its operators or ends the level. -/
theorem stops_rest {loop : Loop} {left tree : Tree} {tokens rest : List Token}
    (derives : Derives calls (.rest loop left tree) tokens)
    (stops : (Level.loop loop).Stops rest) : loop.operand.Stops (tokens ++ rest) := by
  have tight := Level.rank_operand loop
  cases derives with
  | done => exact stops.tighter (Nat.le_of_lt tight)
  | step found => exact Level.stops_cons (Level.carryRank?_of_operator? found) tight

end Derives

/-- No other derivation of the kind takes a different part off the same tokens. -/
def Part.Unique (calls : Bool) : Part → List Token → Prop
  | .whole level tree, tokens =>
    ∀ ⦃other : Tree⦄ ⦃others rest after : List Token⦄, Derives calls (.whole level other) others →
      tokens ++ rest = others ++ after → level.Stops rest → level.Stops after →
      tree = other ∧ tokens = others ∧ rest = after
  | .rest loop start tree, tokens =>
    ∀ ⦃other : Tree⦄ ⦃others rest after : List Token⦄,
      Derives calls (.rest loop start other) others → tokens ++ rest = others ++ after →
      (Level.loop loop).Stops rest → (Level.loop loop).Stops after →
      tree = other ∧ tokens = others ∧ rest = after

namespace Derives

variable {calls : Bool}

-- One lemma for each rule. The next token tells which rule the other derivation used.

section Rules

variable {tree left right : Tree} {tokens before behind : List Token}

theorem unique_atom {token : Token} (found : Tree.ofKind? token.kind = some tree) :
    (Part.whole .primary tree).Unique calls [token] := by
  intro other others rest after second same stops ends
  cases second with
  | atom found' =>
    cases same
    rw [found] at found'
    cases found'
    exact ⟨rfl, rfl, rfl⟩
  | group opens =>
    obtain ⟨rfl, -⟩ := List.cons.inj same
    rw [opens] at found
    cases found
  | applied _ _ _ opens =>
    cases same
    exact absurd stops (Level.not_stops_cons _ (Level.carryRank?_openParen opens) (Nat.le_refl _))

theorem unique_group {opening closing : Token} (opens : opening.kind = .openParen)
    (closes : closing.kind = .closeParen)
    (ih : (Part.whole (.loop .disjunction) tree).Unique calls tokens) :
    (Part.whole .primary (.group tree)).Unique calls (opening :: (tokens ++ [closing])) := by
  intro other others rest after second same stops ends
  cases second with
  | atom found =>
    obtain ⟨rfl, -⟩ := List.cons.inj same
    rw [opens] at found
    cases found
  | group opens' closes' inside' =>
    simp only [List.cons_append, List.append_assoc, List.nil_append, List.cons.injEq] at same
    obtain ⟨rfl, same⟩ := same
    obtain ⟨rfl, rfl, closed⟩ :=
      ih inside' same (Level.stops_closeParen closes) (Level.stops_closeParen closes')
    cases closed
    exact ⟨rfl, rfl, rfl⟩
  | applied _ kind =>
    obtain ⟨rfl, -⟩ := List.cons.inj same
    rw [opens] at kind
    cases kind

theorem unique_applied {head opening comma closing : Token} {name : String} {op : BinaryOp}
    (kind : head.kind = .ident name) (called : calledOperator? name = some op)
    (opens : opening.kind = .openParen) (separates : comma.kind = .comma)
    (closes : closing.kind = .closeParen)
    (ihFirst : (Part.whole (.loop .sum) left).Unique calls before)
    (ihSecond : (Part.whole (.loop .sum) right).Unique calls behind) :
    (Part.whole .primary (.applied op left right)).Unique calls
      (head :: opening :: (before ++ comma :: (behind ++ [closing]))) := by
  intro other others rest after derived same stops ends
  cases derived with
  | atom found =>
    cases same
    exact absurd ends (Level.not_stops_cons _ (Level.carryRank?_openParen opens) (Nat.le_refl _))
  | group opens' =>
    obtain ⟨rfl, -⟩ := List.cons.inj same
    rw [opens'] at kind
    cases kind
  | applied _ kind' called' opens' separates' closes' first' second' =>
    simp only [List.cons_append, List.append_assoc, List.nil_append, List.cons.injEq] at same
    obtain ⟨rfl, rfl, same⟩ := same
    rw [kind] at kind'
    cases kind'
    rw [called] at called'
    cases called'
    obtain ⟨rfl, rfl, parted⟩ :=
      ihFirst first' same (Level.stops_comma separates) (Level.stops_comma separates')
    obtain ⟨rfl, inner⟩ := List.cons.inj parted
    obtain ⟨rfl, rfl, closed⟩ :=
      ihSecond second' inner (Level.stops_closeParen closes) (Level.stops_closeParen closes')
    cases closed
    exact ⟨rfl, rfl, rfl⟩

theorem unique_base (ih : (Part.whole .primary tree).Unique calls tokens) :
    (Part.whole .power tree).Unique calls tokens := by
  intro other others rest after derived same stops ends
  have tight : Level.primary.rank ≤ Level.power.rank := by decide
  cases derived with
  | base operand' => exact ih operand' same (stops.tighter tight) (ends.tighter tight)
  | raised first' kind' second' =>
    have found := Level.carryRank?_caret kind'
    simp only [List.append_assoc, List.cons_append] at same
    have ends := stops.tighter tight
    obtain ⟨-, -, rfl⟩ := ih first' same ends (Level.stops_cons found (by decide))
    exact absurd stops (Level.not_stops_cons _ found (Nat.le_refl _))

theorem unique_raised {caret : Token} (kind : caret.kind = .caret)
    (ihFirst : (Part.whole .primary left).Unique calls before)
    (ihSecond : (Part.whole .signed right).Unique calls behind) :
    (Part.whole .power (.binary .power left right)).Unique calls (before ++ caret :: behind) := by
  intro other others rest after derived same stops ends
  have tight : Level.primary.rank ≤ Level.power.rank := by decide
  have found := Level.carryRank?_caret kind
  simp only [List.append_assoc, List.cons_append] at same
  cases derived with
  | base operand' =>
    obtain ⟨-, -, rfl⟩ :=
      ihFirst operand' same (Level.stops_cons found (by decide)) (ends.tighter tight)
    exact absurd ends (Level.not_stops_cons _ found (Nat.le_refl _))
  | raised first' kind' second' =>
    have found' := Level.carryRank?_caret kind'
    simp only [List.append_assoc, List.cons_append] at same
    obtain ⟨rfl, rfl, raised⟩ := ihFirst first' same (Level.stops_cons found (by decide))
      (Level.stops_cons found' (by decide))
    obtain ⟨rfl, exponents⟩ := List.cons.inj raised
    -- An exponent may have a sign, but no token carries on signed operands only.
    obtain ⟨rfl, rfl, rfl⟩ := ihSecond second' exponents stops.signed ends.signed
    exact ⟨rfl, rfl, rfl⟩

theorem unique_unsigned (starts : StartsAt Level.power.rank tokens)
    (ih : (Part.whole .power tree).Unique calls tokens) :
    (Part.whole .signed tree).Unique calls tokens := by
  intro other others rest after derived same stops ends
  have tight : Level.power.rank ≤ Level.signed.rank := by decide
  cases derived with
  | unsigned operand' => exact ih operand' same (stops.tighter tight) (ends.tighter tight)
  | minus kind' =>
    exact (starts.clash same (by rw [kind']; rfl) (by decide)).elim
  | plus kind' =>
    exact (starts.clash same (by rw [kind']; rfl) (by decide)).elim

theorem unique_minus {sign : Token} (kind : sign.kind = .minus)
    (ih : (Part.whole .signed tree).Unique calls tokens) :
    (Part.whole .signed (.minus tree)).Unique calls (sign :: tokens) := by
  intro other others rest after derived same stops ends
  cases derived with
  | unsigned operand' =>
    exact (operand'.startsAt.clash same.symm (by rw [kind]; rfl) (by decide)).elim
  | minus kind' operand' =>
    obtain ⟨rfl, behind⟩ := List.cons.inj same
    obtain ⟨rfl, rfl, rfl⟩ := ih operand' behind stops ends
    exact ⟨rfl, rfl, rfl⟩
  | plus kind' =>
    obtain ⟨rfl, -⟩ := List.cons.inj same
    rw [kind] at kind'
    cases kind'

theorem unique_plus {sign : Token} (kind : sign.kind = .plus)
    (ih : (Part.whole .signed tree).Unique calls tokens) :
    (Part.whole .signed (.plus tree)).Unique calls (sign :: tokens) := by
  intro other others rest after derived same stops ends
  cases derived with
  | unsigned operand' =>
    exact (operand'.startsAt.clash same.symm (by rw [kind]; rfl) (by decide)).elim
  | minus kind' =>
    obtain ⟨rfl, -⟩ := List.cons.inj same
    rw [kind] at kind'
    cases kind'
  | plus kind' operand' =>
    obtain ⟨rfl, behind⟩ := List.cons.inj same
    obtain ⟨rfl, rfl, rfl⟩ := ih operand' behind stops ends
    exact ⟨rfl, rfl, rfl⟩

theorem unique_alone (ih : (Part.whole (.loop .sum) tree).Unique calls tokens) :
    (Part.whole .comparison tree).Unique calls tokens := by
  intro other others rest after derived same stops ends
  have tight : (Level.loop .sum).rank ≤ Level.comparison.rank := by decide
  cases derived with
  | alone operand' => exact ih operand' same (stops.tighter tight) (ends.tighter tight)
  | compared first' found' second' =>
    have carried := Level.carryRank?_of_comparison? found'
    simp only [List.append_assoc, List.cons_append] at same
    obtain ⟨-, -, rfl⟩ :=
      ih first' same (stops.tighter tight) (Level.stops_cons carried (by decide))
    exact absurd stops (Level.not_stops_cons _ carried (Nat.le_refl _))

theorem unique_compared {sign : Token} {op : BinaryOp} (found : comparison? sign.kind = some op)
    (ihFirst : (Part.whole (.loop .sum) left).Unique calls before)
    (ihSecond : (Part.whole (.loop .sum) right).Unique calls behind) :
    (Part.whole .comparison (.binary op left right)).Unique calls (before ++ sign :: behind) := by
  intro other others rest after derived same stops ends
  have tight : (Level.loop .sum).rank ≤ Level.comparison.rank := by decide
  have carried := Level.carryRank?_of_comparison? found
  simp only [List.append_assoc, List.cons_append] at same
  cases derived with
  | alone operand' =>
    obtain ⟨-, -, rfl⟩ :=
      ihFirst operand' same (Level.stops_cons carried (by decide)) (ends.tighter tight)
    exact absurd ends (Level.not_stops_cons _ carried (Nat.le_refl _))
  | compared first' found' second' =>
    have carried' := Level.carryRank?_of_comparison? found'
    simp only [List.append_assoc, List.cons_append] at same
    obtain ⟨rfl, rfl, compared⟩ := ihFirst first' same (Level.stops_cons carried (by decide))
      (Level.stops_cons carried' (by decide))
    obtain ⟨rfl, behind⟩ := List.cons.inj compared
    rw [found] at found'
    cases found'
    obtain ⟨rfl, rfl, rfl⟩ :=
      ihSecond second' behind (stops.tighter tight) (ends.tighter tight)
    exact ⟨rfl, rfl, rfl⟩

theorem unique_positive (starts : StartsAt Level.comparison.rank tokens)
    (ih : (Part.whole .comparison tree).Unique calls tokens) :
    (Part.whole .negation tree).Unique calls tokens := by
  intro other others rest after derived same stops ends
  have tight : Level.comparison.rank ≤ Level.negation.rank := by decide
  cases derived with
  | positive operand' => exact ih operand' same (stops.tighter tight) (ends.tighter tight)
  | not kind' =>
    exact (starts.clash same (by rw [kind']; rfl) (by decide)).elim

theorem unique_not {word : Token} (kind : word.kind = .keyword .notWord)
    (ih : (Part.whole .negation tree).Unique calls tokens) :
    (Part.whole .negation (.not tree)).Unique calls (word :: tokens) := by
  intro other others rest after derived same stops ends
  cases derived with
  | positive operand' =>
    exact (operand'.startsAt.clash same.symm (by rw [kind]; rfl) (by decide)).elim
  | not kind' operand' =>
    obtain ⟨rfl, behind⟩ := List.cons.inj same
    obtain ⟨rfl, rfl, rfl⟩ := ih operand' behind stops ends
    exact ⟨rfl, rfl, rfl⟩

theorem unique_chain {loop : Loop} (others : Derives calls (.rest loop left tree) behind)
    (ihFirst : (Part.whole loop.operand left).Unique calls before)
    (ihOthers : (Part.rest loop left tree).Unique calls behind) :
    (Part.whole (.loop loop) tree).Unique calls (before ++ behind) := by
  intro other tokens' rest after derived same stops ends
  cases derived with
  | chain first' others' =>
    simp only [List.append_assoc] at same
    obtain ⟨rfl, rfl, behind⟩ :=
      ihFirst first' same (others.stops_rest stops) (others'.stops_rest ends)
    obtain ⟨rfl, rfl, rfl⟩ := ihOthers others' behind stops ends
    exact ⟨rfl, rfl, rfl⟩

theorem unique_done {loop : Loop} :
    (Part.rest loop tree tree).Unique calls [] := by
  intro other tokens' rest after derived same stops ends
  cases derived with
  | done => exact ⟨rfl, rfl, same⟩
  | step found =>
    obtain rfl : rest = _ := same
    exact absurd stops
      (Level.not_stops_cons _ (Level.carryRank?_of_operator? found) (Nat.le_refl _))

theorem unique_step {loop : Loop} {token : Token} {op : BinaryOp}
    (found : loop.operator? token.kind = some op)
    (others : Derives calls (.rest loop (.binary op left right) tree) behind)
    (ihNext : (Part.whole loop.operand right).Unique calls before)
    (ihOthers : (Part.rest loop (.binary op left right) tree).Unique calls behind) :
    (Part.rest loop left tree).Unique calls (token :: (before ++ behind)) := by
  intro other tokens' rest after derived same stops ends
  cases derived with
  | done =>
    obtain rfl : _ = after := same
    exact absurd ends
      (Level.not_stops_cons _ (Level.carryRank?_of_operator? found) (Nat.le_refl _))
  | step found' next' others' =>
    simp only [List.cons_append, List.append_assoc, List.cons.injEq] at same
    obtain ⟨rfl, behind⟩ := same
    rw [found] at found'
    cases found'
    obtain ⟨rfl, rfl, later⟩ :=
      ihNext next' behind (others.stops_rest stops) (others'.stops_rest ends)
    obtain ⟨rfl, rfl, rfl⟩ := ihOthers others' later stops ends
    exact ⟨rfl, rfl, rfl⟩

end Rules

/-- Derivations take the same part off the same tokens, if what follows does not carry them on. -/
theorem partUnique {part : Part} {tokens : List Token} (derives : Derives calls part tokens) :
    part.Unique calls tokens := by
  induction derives with
  | atom found => exact unique_atom found
  | group opens closes _ ih => exact unique_group opens closes ih
  | applied _ kind called opens separates closes _ _ ihFirst ihSecond =>
    exact unique_applied kind called opens separates closes ihFirst ihSecond
  | base _ ih => exact unique_base ih
  | raised _ kind _ ihFirst ihSecond => exact unique_raised kind ihFirst ihSecond
  | unsigned operand ih => exact unique_unsigned operand.startsAt ih
  | minus kind _ ih => exact unique_minus kind ih
  | plus kind _ ih => exact unique_plus kind ih
  | alone _ ih => exact unique_alone ih
  | compared _ found _ ihFirst ihSecond => exact unique_compared found ihFirst ihSecond
  | positive operand ih => exact unique_positive operand.startsAt ih
  | not kind _ ih => exact unique_not kind ih
  | chain _ others ihFirst ihOthers => exact unique_chain others ihFirst ihOthers
  | done => exact unique_done
  | step found _ others ihNext ihOthers => exact unique_step found others ihNext ihOthers

private theorem isInner_of_carryRank? {kind : Kind} {rank : Nat}
    (carried : Level.carryRank? kind = some rank) (operator : 0 < rank) :
    kind.isInner false = true := by
  cases kind with
  | openParen =>
    cases carried
    cases operator
  | openBracket => cases carried
  | closeParen => cases carried
  | closeBracket => cases carried
  | comma => cases carried
  | _ => rfl

/-- Derived tokens close their brackets, and have commas inside them only. -/
theorem closed {part : Part} {tokens : List Token} (derives : Derives calls part tokens) :
    Closed false tokens := by
  induction derives with
  | atom found =>
    refine .token ?_ .nil
    simp only [Tree.ofKind?] at found
    split at found <;> simp_all [Kind.isInner, Kind.isOpening, Kind.isClosing]
  | group opens closes inside ih => exact .brackets opens closes ih.weaken .nil
  | applied allowed kind called opens separates closes first second ihFirst ihSecond =>
    have arguments := ihFirst.weaken.append (.token (by rw [separates]; rfl) ihSecond.weaken)
    refine .token (by rw [kind]; rfl) ?_
    simpa using Closed.brackets opens closes arguments .nil
  | base operand ih => exact ih
  | raised first kind second ihFirst ihSecond =>
    exact ihFirst.append (.token (by rw [kind]; rfl) ihSecond)
  | unsigned operand ih => exact ih
  | minus kind operand ih => exact .token (by rw [kind]; rfl) ih
  | plus kind operand ih => exact .token (by rw [kind]; rfl) ih
  | alone operand ih => exact ih
  | compared first found second ihFirst ihSecond =>
    have inner := isInner_of_carryRank? (Level.carryRank?_of_comparison? found) (by decide)
    exact ihFirst.append (.token inner ihSecond)
  | positive operand ih => exact ih
  | not kind operand ih => exact .token (by rw [kind]; rfl) ih
  | chain first others ihFirst ihOthers => exact ihFirst.append ihOthers
  | done => exact .nil
  | @step loop token op before behind left right tree found next others ihNext ihOthers =>
    have inner :=
      isInner_of_carryRank? (Level.carryRank?_of_operator? found) (by cases loop <;> decide)
    exact .token inner (ihNext.append ihOthers)

/-- Tokens have one derivation at most. -/
theorem unique {level : Level} {tree other : Tree} {tokens : List Token}
    (one : Derives calls (.whole level tree) tokens)
    (two : Derives calls (.whole level other) tokens) : tree = other :=
  (one.partUnique two rfl Level.stops_nil Level.stops_nil).1

end Derives

end Formulary.Operators
