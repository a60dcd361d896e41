import Mathlib
import Formulary.Proofs.Code
import Formulary.Proofs.Reading

set_option autoImplicit false

namespace Formulary

namespace Host

/-- The words of the host that code is written with. -/
def words : List String :=
  ["False", "None", "True", "and", "else", "for", "if", "in", "is", "lambda", "not", "or"]

/-- The names of the host that code is written with. -/
def provided : List String :=
  ["math", "np", "statistics", "len", "sum", "any", "min", "max", "sorted"] ++
    Signature.buildingBlocks

/-- The name that characters between two others spell. A numeral and a word of the host are none,
and neither are a member behind its dot and the keyword of an argument in front of its sign. -/
def name? (before : Char) (spelled : List Char) (after : Char) : Option String :=
  match spelled with
  | [] => none
  | first :: rest =>
    if first.isDigit ∨ String.ofList (first :: rest) ∈ words ∨ before = '.' ∨ after = '=' then none
    else some (String.ofList (first :: rest))

/-- The names in a text, of which `spelled` has been read behind `before`. -/
def namesFrom (before : Char) (spelled : List Char) : List Char → List String
  | [] => (name? before spelled ' ').toList
  | c :: cs =>
    if Lexeme.isWordPart c then namesFrom before (spelled ++ [c]) cs
    else (name? before spelled c).toList ++ namesFrom c [] cs

/-- The names in a text. -/
def names (text : String) : List String := namesFrom ' ' [] text.toList

example : names "np.eye(" = ["np"] := by decide_cbv

example : names ", dtype=np.complex128)" = ["np"] := by decide_cbv

theorem names_eq_nil {text : String} (marks : ∀ c ∈ text.toList, Lexeme.isWordPart c = false) :
    names text = [] := by
  have step (before : Char) (cs : List Char)
      (marks : ∀ c ∈ cs, Lexeme.isWordPart c = false) : namesFrom before [] cs = [] := by
    induction cs generalizing before with
    | nil => rfl
    | cons c cs ih =>
      obtain ⟨here, later⟩ := List.forall_mem_cons.1 marks
      rw [namesFrom, here, ih c later]
      rfl
  exact step ' ' text.toList marks

/-- What a name stands for. -/
inductive Referent where
  | entity
  | provided
  /-- What the comprehension or the key at this distance binds, the nearest at zero. -/
  | bound (distance : Nat)
  deriving DecidableEq, Repr

/-- What a name stands for inside these binders, the nearest first. -/
def referent (binders : List String) (name : String) : Referent :=
  match binders.idxOf? name with
  | some distance => .bound distance
  | none => if name = "self" then .entity else .provided

theorem referent_of_not_mem {binders : List String} {name : String} (free : name ∉ binders) :
    referent binders name = if name = "self" then .entity else .provided := by
  rw [referent, List.idxOf?_eq_none_iff.2 free]

theorem referent_of_mem {binders : List String} {name : String} (bound : name ∈ binders) :
    ∃ distance, referent binders name = .bound distance := by
  cases found : binders.idxOf? name with
  | none => exact absurd bound (List.idxOf?_eq_none_iff.1 found)
  | some distance => exact ⟨distance, by rw [referent, found]⟩

theorem referent_nearest (name : String) (binders : List String) :
    referent (name :: binders) name = .bound 0 := by
  simp [referent, List.idxOf?_cons]

theorem referent_eq_entity {binders : List String} :
    referent binders "self" = .entity ↔ "self" ∉ binders := by
  constructor
  · intro same bound
    obtain ⟨distance, other⟩ := referent_of_mem bound
    rw [other] at same
    cases same
  · intro free
    rw [referent_of_not_mem free, if_pos rfl]

theorem referent_eq_provided {binders : List String} {name : String} (other : name ≠ "self") :
    referent binders name = .provided ↔ name ∉ binders := by
  constructor
  · intro same bound
    obtain ⟨distance, other⟩ := referent_of_mem bound
    rw [other] at same
    cases same
  · intro free
    rw [referent_of_not_mem free, if_neg other]

theorem ne_self_of_mem {name : String} (member : name ∈ provided) : name ≠ "self" := by
  rintro rfl
  revert member
  decide

end Host

/-- What a receiver is meant to stand for. The element of a clause or a key is what the nearest
binder binds. -/
def Receiver.referent : Receiver → Host.Referent
  | .entity => .entity
  | .element _ => .bound 0
  | .parameter _ => .bound 0

namespace Code

/-- Inside these binders, every name stands for what it is meant for. -/
def Faithful (binders : List String) : Code → Prop
  | fixed text => ∀ name ∈ Host.names text, Host.referent binders name = .provided
  | spelled _ => True
  | receiver found => Host.referent binders found.text = found.referent
  | append first second => first.Faithful binders ∧ second.Faithful binders
  | element var part => part.Faithful (var :: binders)
  | key parameter body => body.Faithful (parameter :: binders)

/-- The names that code uses for the entity and for what the host provides. -/
def foreign : Code → List String
  | fixed text => Host.names text
  | spelled _ => []
  | receiver .entity => ["self"]
  | receiver (.element _) => []
  | receiver (.parameter _) => []
  | append first second => first.foreign ++ second.foreign
  | element _ part => part.foreign
  | key _ body => body.foreign

/-- The keys in code, each with its parameter and its body. -/
def keys : Code → List (String × Code)
  | fixed _ => []
  | spelled _ => []
  | receiver _ => []
  | append first second => first.keys ++ second.keys
  | element _ part => part.keys
  | key parameter body => (parameter, body) :: body.keys

/-- Code under a nearest binder `near`: its elements are what that one binds, the writer uses names
of the host only, and none of these for the variable of a comprehension. -/
def Scoped (near : Option String) : Code → Prop
  | fixed text => ∀ name ∈ Host.names text, name ∈ Host.provided
  | spelled _ => True
  | receiver .entity => True
  | receiver (.element var) => near = some var
  | receiver (.parameter name) => near = some name
  | append first second => first.Scoped near ∧ second.Scoped near
  | element var part => var ∉ "self" :: Host.provided ∧ part.Scoped (some var)
  | key parameter body => body.Scoped (some parameter)

theorem Scoped.foreign_subset {near : Option String} {code : Code} (well : code.Scoped near) :
    ∀ name ∈ code.foreign, name ∈ "self" :: Host.provided := by
  induction code generalizing near with
  | fixed text => exact fun name member => List.mem_cons_of_mem _ (well name member)
  | spelled text => simp [foreign]
  | receiver found => cases found <;> simp [foreign]
  | append first second ihFirst ihSecond =>
    intro name member
    rcases List.mem_append.1 member with here | there
    · exact ihFirst well.1 name here
    · exact ihSecond well.2 name there
  | element var part ih => exact ih well.2
  | key parameter body ih => exact ih well

theorem foreign_of_mem_keys {code : Code} {parameter : String} {body : Code}
    (member : (parameter, body) ∈ code.keys) : body.foreign ⊆ code.foreign := by
  induction code with
  | fixed text => cases member
  | spelled text => cases member
  | receiver found => cases member
  | append first second ihFirst ihSecond =>
    rcases List.mem_append.1 member with here | there
    · exact List.subset_append_of_subset_left _ (ihFirst here)
    · exact List.subset_append_of_subset_right _ (ihSecond there)
  | element var part ih => exact ih member
  | key outer part ih =>
    rcases List.mem_cons.1 member with same | later
    · cases same
      exact List.Subset.refl _
    · exact ih later

/-- The induction is over all binders around the code: a foreign name must be free of each of them,
and of the parameters of the keys that are still to come. -/
theorem Scoped.faithful_iff {binders : List String} {code : Code}
    (well : code.Scoped binders.head?) :
    code.Faithful binders ↔
      (∀ name ∈ code.foreign, name ∉ binders) ∧ ∀ key ∈ code.keys, key.1 ∉ key.2.foreign := by
  induction code generalizing binders with
  | fixed text =>
    have provided (name : String) (member : name ∈ Host.names text) :
        Host.referent binders name = .provided ↔ name ∉ binders :=
      Host.referent_eq_provided (Host.ne_self_of_mem (well name member))
    simp only [Faithful, foreign, keys, List.not_mem_nil, false_implies, implies_true, and_true]
    exact forall_congr' fun name => forall_congr' fun member => provided name member
  | spelled text => simp [Faithful, foreign, keys]
  | receiver found =>
    cases found with
    | entity => simp [Faithful, foreign, keys, Receiver.text, Receiver.referent,
        Host.referent_eq_entity]
    | element var =>
      obtain ⟨rest, rfl⟩ := List.head?_eq_some_iff.1 well
      simp [Faithful, foreign, keys, Receiver.text, Receiver.referent, Host.referent_nearest]
    | parameter name =>
      obtain ⟨rest, rfl⟩ := List.head?_eq_some_iff.1 well
      simp [Faithful, foreign, keys, Receiver.text, Receiver.referent, Host.referent_nearest]
  | append first second ihFirst ihSecond =>
    simp only [Faithful, foreign, keys, ihFirst well.1, ihSecond well.2, List.forall_mem_append]
    exact and_and_and_comm
  | element var part ih =>
    -- The variable is none of the foreign names, so one more binder changes nothing for them.
    obtain ⟨apart, inside⟩ := well
    have free (name : String) (member : name ∈ part.foreign) :
        name ∉ var :: binders ↔ name ∉ binders := by
      have other : name ≠ var := by
        rintro rfl
        exact apart (inside.foreign_subset _ member)
      simp [other]
    simp only [Faithful, foreign, keys, @ih (var :: binders) inside]
    exact and_congr_left' (forall_congr' fun name => forall_congr' fun member => free name member)
  | key parameter body ih =>
    -- A parameter may be any name: the body has to be free of it, which is the key's condition.
    simp only [Faithful, foreign, keys, @ih (parameter :: binders) well, List.forall_mem_cons]
    constructor
    · rintro ⟨free, others⟩
      refine ⟨fun name member bound => free name member (by simp [bound]), ?_, others⟩
      exact fun member => free parameter member (by simp)
    · rintro ⟨free, here, others⟩
      refine ⟨fun name member bound => ?_, others⟩
      rcases List.mem_cons.1 bound with rfl | later
      · exact here member
      · exact free name member later

section Nodes

variable {near : Option String}

/-- Text in which all names are the host's. -/
theorem scoped_fixed {text : String}
    (known : (Host.names text).all (Host.provided.contains ·) = true) :
    (fixed text).Scoped near := by
  intro name member
  simpa using List.all_eq_true.1 known name member

theorem scoped_open : (fixed "(").Scoped near := scoped_fixed (by decide_cbv)

theorem scoped_close : (fixed ")").Scoped near := scoped_fixed (by decide_cbv)

theorem scoped_marks {text : String}
    (marks : ∀ c ∈ text.toList, Lexeme.isWordPart c = false) : (fixed text).Scoped near := by
  intro name member
  rw [Host.names_eq_nil marks] at member
  cases member

theorem scoped_symbol (op : BinaryOp) (right : String) : (fixed (op.symbol right)).Scoped near := by
  cases op with
  | equal =>
    rw [BinaryOp.symbol]
    split <;> exact scoped_fixed (by decide_cbv)
  | notEqual =>
    rw [BinaryOp.symbol]
    split <;> exact scoped_fixed (by decide_cbv)
  | _ => exact scoped_fixed (by decide_cbv)

theorem scoped_commas {parts : List Code} (each : ∀ part ∈ parts, part.Scoped near) :
    (commas parts).Scoped near := by
  induction parts with
  | nil => exact scoped_fixed (by decide_cbv)
  | cons part parts ih =>
    obtain ⟨first, others⟩ := List.forall_mem_cons.1 each
    cases parts with
    | nil => exact first
    | cons next parts => exact ⟨⟨first, scoped_fixed (by decide_cbv)⟩, ih others⟩

variable {left right condition yes no value collection elements body : Code}
  {target index count : Code} {predicate projection : Option Code} {var parameter : String}

theorem scoped_binary (op : BinaryOp) (first : left.Scoped near) (second : right.Scoped near) :
    (binary op left right).Scoped near := by
  have blank : (fixed " ").Scoped near := scoped_fixed (by decide_cbv)
  exact ⟨⟨⟨⟨⟨⟨scoped_open, first⟩, blank⟩, scoped_symbol op _⟩, blank⟩, second⟩, scoped_close⟩

theorem scoped_negation (operand : value.Scoped near) : (negation value).Scoped near := by
  unfold negation
  split
  · exact ⟨scoped_fixed (by decide_cbv), operand⟩
  · exact ⟨⟨scoped_fixed (by decide_cbv), operand⟩, scoped_close⟩

theorem scoped_conditional (test : condition.Scoped near) (first : yes.Scoped near)
    (second : no.Scoped near) : (conditional condition yes no).Scoped near := by
  have ifWord : (fixed " if ").Scoped near := scoped_fixed (by decide_cbv)
  have elseWord : (fixed " else ").Scoped near := scoped_fixed (by decide_cbv)
  exact ⟨⟨⟨⟨⟨⟨scoped_open, first⟩, ifWord⟩, test⟩, elseWord⟩, second⟩, scoped_close⟩

theorem scoped_slot {arguments : List Code} {named : List (String × Code)}
    (parts : ∀ part ∈ arguments, part.Scoped near) (values : ∀ entry ∈ named, entry.2.Scoped near)
    (wanted : Slot) : (slot arguments named wanted).Scoped near := by
  have nothing : (fixed "").Scoped near := scoped_fixed (by decide_cbv)
  cases wanted with
  | all => exact scoped_commas parts
  | argument index =>
    rw [slot]
    cases found : arguments[index]? with
    | none => exact nothing
    | some part => exact parts part (List.mem_of_getElem? found)
  | named name =>
    rw [slot]
    cases found : named.lookup name with
    | none => exact nothing
    | some part =>
      obtain ⟨before, after, rfl, -⟩ := List.lookup_eq_some_iff.1 found
      exact values (name, part) (by simp)

theorem scoped_fill {template : Template} {arguments : List Code} {named : List (String × Code)}
    (known : ∀ text, .literal text ∈ template → (fixed text).Scoped near)
    (parts : ∀ part ∈ arguments, part.Scoped near)
    (values : ∀ entry ∈ named, entry.2.Scoped near) :
    (fill arguments named template).Scoped near := by
  induction template with
  | nil => exact scoped_fixed (by decide_cbv)
  | cons piece rest ih =>
    have later := ih fun text member => known text (List.mem_cons_of_mem piece member)
    cases piece with
    | literal text => exact ⟨known text (by simp), later⟩
    | hole wanted => exact ⟨scoped_slot parts values _, later⟩

theorem scoped_repeated (times : Nat) {text : String}
    (marks : text.toList.all (!Lexeme.isWordPart ·) = true) :
    (fixed (repeated times text)).Scoped near := by
  have each : ∀ c ∈ text.toList, Lexeme.isWordPart c = false := by simpa using marks
  apply scoped_marks
  induction times with
  | zero => simp [repeated]
  | succ times ih =>
    rw [repeated_succ, String.toList_append]
    exact List.forall_mem_append.2 ⟨each, ih⟩

theorem scoped_indexAlong (axis : Int) (array : target.Scoped near) (place : index.Scoped near) :
    (indexAlong target axis index).Scoped near := by
  have closes : (fixed "]").Scoped near := scoped_fixed (by decide_cbv)
  unfold indexAlong
  split
  · exact ⟨⟨⟨⟨array, scoped_fixed (by decide_cbv)⟩, scoped_repeated _ rfl⟩, place⟩, closes⟩
  · exact ⟨⟨⟨⟨array, scoped_fixed (by decide_cbv)⟩, place⟩, scoped_repeated _ rfl⟩, closes⟩

theorem scoped_generator (fresh : var ∉ "self" :: Host.provided) (each : value.Scoped (some var))
    (source : collection.Scoped near) (test : ∀ code ∈ predicate, code.Scoped (some var)) :
    (generator value var collection predicate).Scoped near := by
  have words : (fixed " for ").Scoped near := scoped_fixed (by decide_cbv)
  have among : (fixed " in ").Scoped near := scoped_fixed (by decide_cbv)
  refine ⟨⟨⟨⟨⟨⟨fresh, each⟩, words⟩, trivial⟩, among⟩, source⟩, ?_⟩
  cases predicate with
  | none => exact scoped_fixed (by decide_cbv)
  | some code => exact ⟨scoped_fixed (by decide_cbv), fresh, test code rfl⟩

theorem scoped_filtered (fresh : var ∉ "self" :: Host.provided) (source : collection.Scoped near)
    (test : ∀ code ∈ predicate, code.Scoped (some var)) :
    (filtered var collection predicate).Scoped near := by
  cases predicate with
  | none => exact source
  | some code =>
    exact ⟨⟨scoped_open, scoped_generator fresh rfl source test⟩, scoped_close⟩

section Reductions

variable (fresh : var ∉ "self" :: Host.provided) (source : collection.Scoped near)
  (test : ∀ code ∈ predicate, code.Scoped (some var))
  (mapped : ∀ code ∈ projection, code.Scoped (some var))

include fresh source test mapped

theorem scoped_apply {function : String} (callee : (fixed function).Scoped near) :
    (apply function var collection predicate projection).Scoped near := by
  have each : (projection.getD (.receiver (.element var))).Scoped (some var) := by
    cases projection with
    | none => rfl
    | some code => exact mapped code rfl
  unfold apply
  split
  · exact ⟨⟨⟨callee, scoped_open⟩, source⟩, scoped_close⟩
  · exact ⟨⟨⟨callee, scoped_open⟩, scoped_generator fresh each source test⟩, scoped_close⟩

theorem scoped_count : (Code.count var collection predicate projection).Scoped near := by
  have sums : (fixed "sum(").Scoped near := scoped_fixed (by decide_cbv)
  have one : (fixed "1").Scoped (some var) := scoped_fixed (by decide_cbv)
  have present : (fixed " is not None").Scoped (some var) := scoped_fixed (by decide_cbv)
  unfold Code.count
  split
  · exact ⟨⟨scoped_fixed (by decide_cbv), source⟩, scoped_close⟩
  · exact ⟨⟨sums, scoped_generator fresh one source test⟩, scoped_close⟩
  · rename_i value
    refine ⟨⟨sums, scoped_generator fresh one source ?_⟩, scoped_close⟩
    rintro _ ⟨⟩
    exact ⟨mapped value rfl, present⟩
  · rename_i code value
    refine ⟨⟨sums, scoped_generator fresh one source ?_⟩, scoped_close⟩
    rintro _ ⟨⟩
    exact ⟨⟨⟨test code rfl, scoped_fixed (by decide_cbv)⟩, mapped value rfl⟩, present⟩

theorem scoped_any : (any var collection predicate projection).Scoped near := by
  have each : (projection.getD (.fixed "True")).Scoped (some var) := by
    cases projection with
    | none => exact scoped_fixed (by decide_cbv)
    | some code => exact mapped code rfl
  unfold any
  split
  · exact ⟨⟨scoped_fixed (by decide_cbv), source⟩, scoped_fixed (by decide_cbv)⟩
  · exact ⟨⟨scoped_fixed (by decide_cbv), scoped_generator fresh each source test⟩, scoped_close⟩

theorem scoped_reduction (reducer : Reducer) :
    (reduction reducer var collection predicate projection).Scoped near := by
  cases reducer with
  | count => exact scoped_count fresh source test mapped
  | sum => exact scoped_apply fresh source test mapped (scoped_fixed (by decide_cbv))
  | mean => exact scoped_apply fresh source test mapped (scoped_fixed (by decide_cbv))
  | mode => exact scoped_apply fresh source test mapped (scoped_fixed (by decide_cbv))
  | «exists» => exact scoped_any fresh source test mapped

end Reductions

theorem scoped_extreme (which : Extreme) (source : elements.Scoped near)
    (chosen : body.Scoped (some parameter)) :
    (extreme which elements parameter body).Scoped near := by
  have function : (fixed which.function).Scoped near := by
    cases which <;> exact scoped_fixed (by decide_cbv)
  have word : (fixed ", key=lambda ").Scoped near := scoped_fixed (by decide_cbv)
  exact ⟨⟨⟨⟨⟨function, scoped_open⟩, source⟩, word⟩, chosen⟩, scoped_close⟩

theorem scoped_top (number : count.Scoped near) (source : elements.Scoped near)
    (chosen : body.Scoped (some parameter)) : (top count elements parameter body).Scoped near :=
  ⟨⟨⟨⟨⟨⟨scoped_fixed (by decide_cbv), source⟩, scoped_fixed (by decide_cbv)⟩, chosen⟩,
    scoped_fixed (by decide_cbv)⟩, number⟩, scoped_fixed (by decide_cbv)⟩

end Nodes

end Code

/-- Whether all names that the writer puts into a piece are the host's. -/
def Piece.isProvided : Piece → Bool
  | literal text => (Host.names text).all (Host.provided.contains ·)
  | hole _ => true

namespace Signature

theorem isProvided_of_mem : ∀ signature ∈ table, ∀ piece ∈ signature.template,
    piece.isProvided = true := by
  decide_cbv

theorem scoped_fill {name : String} {signature : Signature} {near : Option String}
    (found : lookup? name = some signature) {arguments : List Code} {named : List (String × Code)}
    (parts : ∀ part ∈ arguments, part.Scoped near)
    (values : ∀ entry ∈ named, entry.2.Scoped near) :
    (Code.fill arguments named signature.template).Scoped near := by
  refine Code.scoped_fill (fun text member => Code.scoped_fixed ?_) parts values
  exact isProvided_of_mem signature (List.mem_of_find?_eq_some found) (.literal text) member

theorem scoped_alongAxis {name : String} {signature : Signature} {near : Option String}
    (found : lookup? name = some signature) {target : Code} {axis : Option Code}
    (array : target.Scoped near) (given : ∀ code ∈ axis, code.Scoped near) :
    (Code.alongAxis signature target axis).Scoped near := by
  cases axis with
  | none => exact scoped_fill found (by simpa using array) (by simp)
  | some code =>
    have keyword : (Code.fixed ", axis=").Scoped near := Code.scoped_fixed (by decide_cbv)
    have along : (.fixed ", axis=" ++ code : Code).Scoped near := ⟨keyword, given code rfl⟩
    exact scoped_fill found (by simpa using array) (by simpa using along)

theorem scoped_slice {name : String} {signature : Signature} {near : Option String}
    (found : lookup? name = some signature) {target axis index : Code}
    (array : target.Scoped near) (along : axis.Scoped near) (place : index.Scoped near) :
    (Code.slice signature target axis index).Scoped near := by
  unfold Code.slice
  split
  · exact Code.scoped_indexAlong _ array place
  · exact scoped_fill found (by simpa using array) (by simpa using ⟨along, place⟩)

end Signature

/-- The nearest binder, if what bare names are members of is bound by one. -/
def Receiver.binder? : Receiver → Option String
  | .entity => none
  | .element var => some var
  | .parameter name => some name

theorem Receiver.scoped_code (receiver : Receiver) :
    (Code.receiver receiver).Scoped receiver.binder? := by
  cases receiver <;> trivial

theorem Path.scoped_code {path : Path} {near : Option String}
    (start : (Code.receiver path.receiver).Scoped near) : path.code.Scoped near := by
  obtain ⟨receiver, members⟩ := path
  have dot : (Code.fixed ".").Scoped near := Code.scoped_fixed (by decide_cbv)
  have step (code : Code) (members : List String) (well : code.Scoped near) :
      (members.foldl (fun code member => code ++ .fixed "." ++ .spelled member) code).Scoped
        near := by
    induction members generalizing code with
    | nil => exact well
    | cons member members ih => exact ih _ ⟨⟨well, dot⟩, trivial⟩
  exact step _ members start

namespace Scope

/-- What starts a reference is the entity or what the nearest binder binds. -/
theorem scoped_resolve (scope : Scope) (names : List String) :
    (Code.receiver (scope.resolve names).receiver).Scoped scope.receiver.binder? := by
  unfold resolve
  split
  · exact scope.receiver.scoped_code
  · rename_i head rest
    split
    · trivial
    · split
      · rename_i bound
        have same : scope.receiver = .parameter head := by simpa [binds] using bound
        rw [same]
        rfl
      · exact scope.receiver.scoped_code

/-- The variable of a comprehension starts with a letter that no name of the host starts with. -/
theorem nextVar_fresh (scope : Scope) : scope.nextVar ∉ "self" :: Host.provided := by
  have first : scope.nextVar.toList.head? = some 'i' := by
    rw [nextVar]
    split
    · rfl
    · rw [String.toList_append]
      rfl
  intro member
  have others : ∀ name ∈ "self" :: Host.provided, name.toList.head? ≠ some 'i' := by decide
  exact others _ member first

theorem scoped_collection {scope : Scope} {names : List String} {text : String}
    {collection : Collection} (resolved : scope.collection names text = .ok collection) :
    collection.code.Scoped scope.receiver.binder? := by
  have start := scope.scoped_resolve names
  unfold Scope.collection at resolved
  simp only at resolved
  split at resolved
  · cases resolved
    exact Path.scoped_code start
  · cases resolved
    exact Path.scoped_code start
  · rename_i member field parts
    cases resolved
    have path : (Path.code ⟨(scope.resolve names).receiver, [member]⟩).Scoped
        scope.receiver.binder? := Path.scoped_code start
    exact ⟨⟨⟨⟨⟨⟨⟨⟨Code.scoped_fixed (by decide_cbv), scope.nextVar_fresh, rfl⟩,
      Code.scoped_fixed (by decide_cbv)⟩, trivial⟩, Code.scoped_fixed (by decide_cbv)⟩, trivial⟩,
      Code.scoped_fixed (by decide_cbv)⟩, path⟩, Code.scoped_fixed (by decide_cbv)⟩
  · cases resolved

end Scope

/-- The code of what was read in this scope is under its binder, that of a clause under the
variable of the comprehension and that of a key under its parameter. -/
def Reading.Scoped (scope : Scope) : Reading → Prop
  | .items exprs => ∀ code ∈ Expr.codeAll exprs, code.Scoped scope.receiver.binder?
  | .collection expr => expr.code.Scoped scope.receiver.binder?
  | .clause _ expr => ∀ code ∈ Expr.codeOption expr, code.Scoped scope.receiver.binder?
  | .source expr predicate => expr.code.Scoped scope.receiver.binder? ∧
      ∀ code ∈ Expr.codeOption predicate, code.Scoped (some scope.nextVar)
  | .key parameter expr => expr.code.Scoped (some parameter)
  | .keyword _ expr => expr.code.Scoped scope.receiver.binder?
  | .arguments _ expr => expr.code.Scoped scope.receiver.binder?

theorem Reading.scoped_item {scope : Scope} {expr : Expr} :
    (Reading.items [expr]).Scoped scope ↔ expr.code.Scoped scope.receiver.binder? := by
  simp [Reading.Scoped, Expr.codeAll]

theorem scoped_of_literal? {name : String} {expr : Expr} {near : Option String}
    (known : Grammar.literal? name = some expr) : expr.code.Scoped near := by
  unfold Grammar.literal? at known
  split at known <;> cases known <;> exact Code.scoped_fixed (by decide_cbv)

theorem scoped_of_reads {scope : Scope} {tokens : List Token} {reading : Reading}
    (reads : Reads scope tokens reading) : reading.Scoped scope := by
  -- A clause and a key are read in a scope of their own, whose receiver is what they bind.
  induction reads with
  | number kind => exact Reading.scoped_item.2 trivial
  | text kind => exact Reading.scoped_item.2 trivial
  | literal kind known => exact Reading.scoped_item.2 (scoped_of_literal? known)
  | @reference scope tokens names path text dotted resolved =>
    unfold Scope.value at resolved
    simp only at resolved
    split at resolved
    · cases resolved
    · cases resolved
      exact Reading.scoped_item.2 (Path.scoped_code (scope.scoped_resolve names))
  | group opens closes inside ih => exact ih
  | tuple opens closes inside several ih =>
    exact Reading.scoped_item.2 ⟨⟨Code.scoped_open, Code.scoped_commas ih⟩, Code.scoped_close⟩
  | list opens closes inside ih =>
    exact Reading.scoped_item.2 ⟨⟨Code.scoped_fixed (by decide_cbv), Code.scoped_commas ih⟩,
      Code.scoped_fixed (by decide_cbv)⟩
  | nothing => simp [Reading.Scoped, Expr.codeAll]
  | more first kind others ihFirst ihOthers =>
    exact List.forall_mem_cons.2 ⟨Reading.scoped_item.1 ihFirst, ihOthers⟩
  | not kind operand ih =>
    exact Reading.scoped_item.2 ⟨⟨Code.scoped_fixed (by decide_cbv), Reading.scoped_item.1 ih⟩,
      Code.scoped_close⟩
  | negate kind operand ih =>
    exact Reading.scoped_item.2 (Code.scoped_negation (Reading.scoped_item.1 ih))
  | positive kind operand ih => exact ih
  | binary kind first second ihFirst ihSecond =>
    have left := Reading.scoped_item.1 ihFirst
    have right := Reading.scoped_item.1 ihSecond
    exact Reading.scoped_item.2 (Code.scoped_binary _ left right)
  | conditional isIf opens closes isThen isElse test first second ihTest ihFirst ihSecond =>
    have condition := Reading.scoped_item.1 ihTest
    have yes := Reading.scoped_item.1 ihFirst
    have no := Reading.scoped_item.1 ihSecond
    exact Reading.scoped_item.2 (Code.scoped_conditional condition yes no)
  | call kind opens closes inside ih => exact Reading.scoped_item.2 ih
  | positional found _ shape arity parts ih => exact Signature.scoped_fill found ih (by simp)
  | @overMember scope name member signature tokens comma token expr found _ shape collection kind
      named ih =>
    have source := Reading.scoped_item.1 ih
    have word : (Code.spelled member).Scoped scope.receiver.binder? := trivial
    have var : (Code.element scope.nextVar (.receiver (.element scope.nextVar))).Scoped
        scope.receiver.binder? := ⟨scope.nextVar_fresh, rfl⟩
    exact Signature.scoped_fill found (by simpa using ⟨source, word⟩) (by simpa using var)
  | keyword kind named known equals given ih => exact Reading.scoped_item.1 ih
  | wholeArray found _ shape target ih =>
    have array := Reading.scoped_item.1 ih
    exact Signature.scoped_alongAxis found array (by simp [Expr.codeOption])
  | alongAxis found _ shape target given ihTarget ihGiven =>
    have array := Reading.scoped_item.1 ihTarget
    have axis : Code.Scoped _ _ := ihGiven
    exact Signature.scoped_alongAxis found array (by simpa [Expr.codeOption] using axis)
  | slice found _ shape inRange target along place _ ihTarget ihAlong ihPlace =>
    have array := Reading.scoped_item.1 ihTarget
    exact Signature.scoped_slice found array ihAlong ihPlace
  | @receiver scope => exact Path.scoped_code scope.receiver.scoped_code
  | named dotted resolved => exact Scope.scoped_collection resolved
  | computed given _ ih => exact Reading.scoped_item.1 ih
  | absent => simp [Reading.Scoped, Expr.codeOption]
  | present kind given ih =>
    simpa [Reading.Scoped, Expr.codeOption] using Reading.scoped_item.1 ih
  | @reduce scope name reducer before middle behind collection predicate projection known source
      test value _ ihSource ihTest ihValue =>
    exact Code.scoped_reduction scope.nextVar_fresh ihSource ihTest ihValue reducer
  | @ownSource scope =>
    exact ⟨Path.scoped_code scope.receiver.scoped_code, by simp [Expr.codeOption]⟩
  | givenSource source test kind _ ihSource ihTest => exact ⟨ihSource, ihTest⟩
  | key named kind body ih => exact Reading.scoped_item.1 ih
  | @extreme scope name parameter which before behind collection body predicate known source chosen
      ihSource ihChosen =>
    have elements := Code.scoped_filtered scope.nextVar_fresh ihSource.1 ihSource.2
    exact Code.scoped_extreme which elements ihChosen
  | @top scope parameter comma first before behind count collection body predicate number kind
      source chosen ihNumber ihSource ihChosen =>
    have number := Reading.scoped_item.1 ihNumber
    have elements := Code.scoped_filtered scope.nextVar_fresh ihSource.1 ihSource.2
    exact Code.scoped_top number elements ihChosen

namespace Formula

theorem scoped_of_parse {formula : String} {expr : Expr}
    (accepted : (parse formula).result = .ok expr) : expr.code.Scoped none := by
  obtain ⟨tokens, -, ⟨-, rfl⟩ | reads⟩ := reads_of_parse accepted
  · exact Code.scoped_fixed (by decide_cbv)
  · exact Reading.scoped_item.1 (scoped_of_reads reads)

/-- In the code of an accepted formula all names stand for what they are meant for if and only if
no key has a parameter that its body uses for the entity or for a name of the host. Only `self` and
the names that the host provides can be taken away like this. -/
theorem parse_faithful_iff {formula : String} {expr : Expr}
    (accepted : (parse formula).result = .ok expr) :
    (compile formula).result = .ok ⟨expr.code.text, expr.needs⟩ ∧
      (expr.code.Faithful [] ↔ ∀ key ∈ expr.code.keys, key.1 ∉ key.2.foreign) ∧
      ∀ key ∈ expr.code.keys, ∀ name ∈ key.2.foreign, name ∈ "self" :: Host.provided := by
  have well := scoped_of_parse accepted
  refine ⟨?_, ?_, ?_⟩
  · rw [expr.text_code]
    exact compile_eq_ok.2 ⟨expr, accepted, rfl⟩
  · have outside : expr.code.Scoped ([] : List String).head? := well
    simpa only [List.not_mem_nil, not_false_eq_true, implies_true, true_and] using
      outside.faithful_iff
  · intro key member name used
    exact well.foreign_subset name (Code.foreign_of_mem_keys member used)

/-- A key that takes the entity away from a sum in its body, and one with the same body that takes
nothing away. -/
theorem parse_faithful_parameters :
    (∃ expr, (parse "MAXBY(xs, self => SUM(this.ys => y))").result = .ok expr ∧
      expr.code.text = "max(self.xs, key=lambda self: sum(item1.y for item1 in self.ys))" ∧
      ¬expr.code.Faithful []) ∧
    ∃ expr, (parse "MAXBY(xs, x => SUM(this.ys => y))").result = .ok expr ∧
      expr.code.text = "max(self.xs, key=lambda x: sum(item1.y for item1 in self.ys))" ∧
      expr.code.Faithful [] := by
  have read :
      (parse "MAXBY(xs, self => SUM(this.ys => y))").result.toOption.any (fun expr =>
        expr.code.text = "max(self.xs, key=lambda self: sum(item1.y for item1 in self.ys))" ∧
          ¬∀ key ∈ expr.code.keys, key.1 ∉ key.2.foreign) = true ∧
      (parse "MAXBY(xs, x => SUM(this.ys => y))").result.toOption.any (fun expr =>
        expr.code.text = "max(self.xs, key=lambda x: sum(item1.y for item1 in self.ys))" ∧
          ∀ key ∈ expr.code.keys, key.1 ∉ key.2.foreign) = true := by
    decide +kernel
  simp only [Option.any_eq_true, decide_eq_true_eq] at read
  obtain ⟨⟨taking, first, takingText, takes⟩, keeping, second, keepingText, keeps⟩ := read
  have entity := parse_faithful_iff (eq_ok_of_toOption first)
  have nothing := parse_faithful_iff (eq_ok_of_toOption second)
  exact ⟨⟨taking, eq_ok_of_toOption first, takingText, fun kept => takes (entity.2.1.1 kept)⟩,
    keeping, eq_ok_of_toOption second, keepingText, nothing.2.1.2 keeps⟩

end Formula

end Formulary
