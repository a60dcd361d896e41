import Mathlib
import Formulary.Proofs.Code
import Formulary.Proofs.Uses

set_option autoImplicit false

namespace Formulary

/-- The names that code starts a chain of members with, which are those of its receivers. -/
def Code.heads : Code → List String
  | fixed _ => []
  | spelled _ => []
  | receiver found => [found.text]
  | append first second => first.heads ++ second.heads
  | element _ part => part.heads
  | key _ body => body.heads

@[simp] theorem Code.heads_append (first second : Code) :
    (first ++ second).heads = first.heads ++ second.heads := rfl

theorem Path.heads_code (path : Path) : path.code.heads = [path.receiver.text] := by
  obtain ⟨receiver, members⟩ := path
  have step (code : Code) (members : List String) :
      (members.foldl (fun code member => code ++ .fixed "." ++ .spelled member) code).heads =
        code.heads := by
    induction members generalizing code with
    | nil => rfl
    | cons member members ih =>
      rw [List.foldl_cons, ih]
      simp [Code.heads]
  exact step _ members

theorem Collection.heads_whole (path : Path) :
    (Collection.whole path).code.heads = [path.receiver.text] := path.heads_code

theorem Collection.heads_projected (path : Path) (field var : String) :
    (Collection.projected path field var).code.heads = [var, path.receiver.text] := by
  simp [Collection.code, Code.heads, path.heads_code, Receiver.text]

namespace Scope

theorem nextVar_eq (scope : Scope) :
    scope.nextVar = "item" ++ if scope.depth = 0 then "" else scope.depth.repr := by
  rw [nextVar]
  split
  · rename_i top
    rw [top]
    rfl
  · rename_i inside
    rw [if_neg inside]
    rfl

/-- Variables are told apart by their numbers, and the first by having none. -/
theorem nextVar_eq_iff {scope other : Scope} :
    scope.nextVar = other.nextVar ↔ scope.depth = other.depth := by
  rw [nextVar_eq, nextVar_eq, String.append_right_inj]
  split_ifs with top otherTop otherTop
  · simp [top, otherTop]
  · simp [top, Ne.symm otherTop, Nat.repr_ne_empty.symm]
  · simp [otherTop, top, Nat.repr_ne_empty]
  · exact Nat.repr_inj

theorem depth_within (binders : List Binder) : (within binders).depth = binders.length := by
  induction binders with
  | nil => rfl
  | cons binder around ih =>
    cases binder with
    | clause => rw [within, element, ih, List.length_cons]
    | key parameter => rw [within, lambda, ih, List.length_cons]

/-- The variables of the comprehensions among these binders, the nearest first. -/
def varsWithin : List Binder → List String
  | [] => []
  | .clause :: around => (within around).nextVar :: varsWithin around
  | .key _ :: around => varsWithin around

theorem exists_depth_of_mem {binders : List Binder} {var : String}
    (running : var ∈ varsWithin binders) :
    ∃ scope : Scope, var = scope.nextVar ∧ scope.depth < binders.length := by
  induction binders with
  | nil => cases running
  | cons binder around ih =>
    have outer (further : var ∈ varsWithin around) :
        ∃ scope : Scope, var = scope.nextVar ∧ scope.depth < around.length + 1 := by
      obtain ⟨scope, same, lower⟩ := ih further
      exact ⟨scope, same, Nat.lt_succ_of_lt lower⟩
    cases binder with
    | clause =>
      rcases List.mem_cons.1 running with same | further
      · exact ⟨within around, same, Nat.lt_succ_of_le (depth_within around).le⟩
      · exact outer further
    | key parameter => exact outer running

theorem nextVar_not_mem_varsWithin (binders : List Binder) :
    (within binders).nextVar ∉ varsWithin binders := by
  intro running
  obtain ⟨scope, same, lower⟩ := exists_depth_of_mem running
  rw [nextVar_eq_iff, depth_within] at same
  omega

/-- No comprehension takes a variable of one around it. -/
theorem nodup_varsWithin (binders : List Binder) : (varsWithin binders).Nodup := by
  induction binders with
  | nil => exact List.nodup_nil
  | cons binder around ih =>
    cases binder with
    | clause => exact List.nodup_cons.2 ⟨nextVar_not_mem_varsWithin around, ih⟩
    | key parameter => exact ih

section Heads

variable (scope : Scope)

theorem receiver_resolve (names : List String) :
    (scope.resolve names).receiver = .entity ∨ (scope.resolve names).receiver = scope.receiver := by
  unfold resolve
  split
  · exact .inr rfl
  · rename_i head rest
    split_ifs with this bound
    · exact .inl rfl
    · have same : scope.receiver = .parameter head := by simpa [binds] using bound
      exact .inr same.symm
    · exact .inr rfl

/-- What a reference resolves to starts with the entity or with what bare names are members of. -/
theorem head_resolve (names : List String) :
    (scope.resolve names).receiver.text = "self" ∨
      (scope.resolve names).receiver.text = scope.receiverText := by
  rcases scope.receiver_resolve names with entity | own
  · exact .inl (by rw [entity]; rfl)
  · exact .inr (by rw [own]; rfl)

/-- In every scope there are names that are members. -/
theorem exists_member : ∃ name, ∀ rest,
    scope.resolve (name :: rest) = ⟨scope.receiver, name :: rest⟩ := by
  by_cases bound : scope.binds "a" = true
  · have receiver : scope.receiver = .parameter "a" := by simpa [binds] using bound
    exact ⟨"b", fun rest => by simp [resolve, binds, receiver]⟩
  · exact ⟨"a", fun rest => by simp [resolve, bound]⟩

theorem heads_value (head : String) :
    (∃ names text path, scope.value names text = .ok path ∧ path.render = path.code.text ∧
      head ∈ path.code.heads) ↔
      head = "self" ∨ head = scope.receiverText := by
  simp only [Path.text_code, true_and, Path.heads_code, List.mem_singleton]
  constructor
  · rintro ⟨names, text, path, resolved, rfl⟩
    rw [eq_resolve_of_value resolved]
    exact scope.head_resolve names
  · rintro (rfl | rfl)
    · exact ⟨["this"], "", ⟨.entity, []⟩, by simp [value, resolve], rfl⟩
    · exact ⟨[], "", ⟨scope.receiver, []⟩, by simp [value, resolve], rfl⟩

theorem heads_whole (head : String) :
    (∃ names text path, scope.collection names text = .ok (.whole path) ∧
      (Collection.whole path).render = (Collection.whole path).code.text ∧
      head ∈ (Collection.whole path).code.heads) ↔
      head = "self" ∨ head = scope.receiverText := by
  simp only [Collection.text_code, true_and, Collection.heads_whole, List.mem_singleton]
  constructor
  · rintro ⟨names, text, path, resolved, rfl⟩
    obtain ⟨⟨⟩⟩ | ⟨-, -, -, ⟨⟩⟩ := collection_cases resolved
    exact scope.head_resolve names
  · rintro (rfl | rfl)
    · exact ⟨["this"], "", ⟨.entity, []⟩, by simp [collection, resolve], rfl⟩
    · exact ⟨[], "", ⟨scope.receiver, []⟩, by simp [collection, resolve], rfl⟩

theorem heads_projected (head : String) :
    (∃ names text path field var, scope.collection names text = .ok (.projected path field var) ∧
      (Collection.projected path field var).render =
        (Collection.projected path field var).code.text ∧
      head ∈ (Collection.projected path field var).code.heads) ↔
      head = "self" ∨ head = scope.receiverText ∨ head = scope.nextVar := by
  simp only [Collection.text_code, true_and, Collection.heads_projected, List.mem_cons,
    List.not_mem_nil, or_false]
  constructor
  · rintro ⟨names, text, path, field, var, resolved, starts⟩
    obtain ⟨⟨⟩⟩ | ⟨member, field, -, ⟨⟩⟩ := collection_cases resolved
    rcases starts with rfl | rfl
    · exact .inr (.inr rfl)
    · rw [← or_assoc]
      exact .inl (scope.head_resolve names)
  · have entity : scope.collection ["this", "a", "b"] "" =
        .ok (.projected ⟨.entity, ["a"]⟩ "b" scope.nextVar) := by
      simp [collection, resolve]
    obtain ⟨name, isMember⟩ := scope.exists_member
    have own : scope.collection [name, "b"] "" =
        .ok (.projected ⟨scope.receiver, [name]⟩ "b" scope.nextVar) := by
      simp [collection, isMember]
    rintro (rfl | rfl | rfl)
    · exact ⟨_, _, _, _, _, entity, .inr rfl⟩
    · exact ⟨_, _, _, _, _, own, .inr rfl⟩
    · exact ⟨_, _, _, _, _, own, .inl rfl⟩

end Heads

/-- The variable for a comprehension inside any clauses and keys is none of those that run around
it, and no two of these are the same. References there start with the entity, with what the nearest
binder binds or, where they take a field of every element, with that variable, and with nothing
else: these are the heads in the code, which without its marks is the text that is written. -/
theorem within_fresh (binders : List Binder) :
    (within binders).nextVar ∉ varsWithin binders ∧ (varsWithin binders).Nodup ∧
      ∀ head,
        ((∃ names text path, (within binders).value names text = .ok path ∧
          path.render = path.code.text ∧ head ∈ path.code.heads) ↔
            head = "self" ∨ head = (within binders).receiverText) ∧
        ((∃ names text path, (within binders).collection names text = .ok (.whole path) ∧
          (Collection.whole path).render = (Collection.whole path).code.text ∧
          head ∈ (Collection.whole path).code.heads) ↔
            head = "self" ∨ head = (within binders).receiverText) ∧
        ((∃ names text path field var,
          (within binders).collection names text = .ok (.projected path field var) ∧
          (Collection.projected path field var).render =
            (Collection.projected path field var).code.text ∧
          head ∈ (Collection.projected path field var).code.heads) ↔
            head = "self" ∨ head = (within binders).receiverText ∨
              head = (within binders).nextVar) :=
  ⟨nextVar_not_mem_varsWithin binders, nodup_varsWithin binders, fun head =>
    ⟨heads_value _ head, heads_whole _ head, heads_projected _ head⟩⟩

end Scope

end Formulary
