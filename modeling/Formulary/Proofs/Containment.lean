import Mathlib
import Formulary.Proofs.Report

set_option autoImplicit false

namespace Formulary

namespace Property

/-- The lines of the accessor. -/
def block (property : Property) : List Line := (Accessor.ofProperty property).lines

/-- The text of the accessor. -/
def blockText (property : Property) : String := "\n".intercalate (property.block.map Line.render)

/-- The failure to compile the rule, if it cannot be compiled. -/
def failure? (entity : String) (property : Property) : Option Failure :=
  (Accessor.ofProperty property).failure? entity

/-- The line that starts an accessor. -/
def decorator : Line := ⟨1, "@property"⟩

/-- The lines that an accessor starts with. -/
def header (name : String) : List Line := [.blank, decorator, ⟨1, "def " ++ name ++ "(self):"⟩]

end Property

/-- In the second entity one computed member has another formula, or another join condition, and
all else is as in the first. The last two arguments are that member before and after. -/
inductive Edited : Entity → Entity → Property → Property → Prop where
  | lookup {entity : Entity} {before behind : List Lookup} {name old new : String}
      (here : entity.lookups = before ++ ⟨name, .derived old⟩ :: behind) :
      Edited entity { entity with lookups := before ++ ⟨name, .derived new⟩ :: behind }
        ⟨name, .join old⟩ ⟨name, .join new⟩
  | field {entity : Entity} {before behind : List Field} {name old new description : String}
      (here : entity.fields = before ++ ⟨name, .calculated old description⟩ :: behind) :
      Edited entity
        { entity with fields := before ++ ⟨name, .calculated new description⟩ :: behind }
        ⟨name, .formula old description⟩ ⟨name, .formula new description⟩
  | aggregate {entity : Entity} {before behind : List Aggregate}
      {name old new description : String}
      (here : entity.aggregates = before ++ ⟨name, old, description⟩ :: behind) :
      Edited entity { entity with aggregates := before ++ ⟨name, new, description⟩ :: behind }
        ⟨name, .formula old description⟩ ⟨name, .formula new description⟩

/-- The classes of two entities are the same but for the accessor of one member. -/
structure Framed (entity edited : Entity) (old new : Property) : Prop where
  /-- The lines before the accessor and those behind it are the same, and they are those of the
  class and of the other members. -/
  lines : ∃ earlier later : List Property,
    entity.properties = earlier ++ old :: later ∧ edited.properties = earlier ++ new :: later ∧
    (ClassCode.ofEntity entity).lines = (entity.classHead ++ earlier.flatMap Property.block) ++
      old.block ++ later.flatMap Property.block ∧
    (ClassCode.ofEntity edited).lines = (entity.classHead ++ earlier.flatMap Property.block) ++
      new.block ++ later.flatMap Property.block
  text : ∃ front back : String,
    (ClassCode.ofEntity entity).text = front ++ old.blockText ++ back ∧
    (ClassCode.ofEntity edited).text = front ++ new.blockText ++ back
  /-- Either accessor starts with the same lines, and none other starts in it. -/
  blocks : ∃ body body' : List Line,
    old.block = Property.header old.name ++ body ∧ new.block = Property.header old.name ++ body' ∧
    Property.decorator ∉ body ∧ Property.decorator ∉ body'
  /-- The failures before the member's own and those behind it are the same. -/
  failures : ∃ before behind : List Failure,
    (ClassCode.ofEntity entity).failures =
      before ++ (old.failure? entity.name).toList ++ behind ∧
    (ClassCode.ofEntity edited).failures =
      before ++ (new.failure? entity.name).toList ++ behind
  /-- The failures of other members are the same. -/
  others : (ClassCode.ofEntity entity).failures.filter (·.member ≠ old.name) =
    (ClassCode.ofEntity edited).failures.filter (·.member ≠ old.name)

namespace Edited

variable {entity edited : Entity} {old new : Property}

theorem entity_name (edit : Edited entity edited old new) : edited.name = entity.name := by
  cases edit <;> rfl

theorem property_name (edit : Edited entity edited old new) : new.name = old.name := by
  cases edit <;> rfl

/-- A computed member has no line in the constructor. -/
theorem classHead (edit : Edited entity edited old new) : edited.classHead = entity.classHead := by
  cases edit with
  | @lookup before behind name old new here =>
    have unassigned (condition : String) :
        Lookup.assignment? ⟨name, .derived condition⟩ = none := rfl
    simp [Entity.classHead, Entity.constructorBody, here, List.filterMap_cons_none (unassigned _)]
  | @field before behind name old new description here =>
    have unassigned (formula : String) :
        Field.assignment? ⟨name, .calculated formula description⟩ = none := rfl
    simp [Entity.classHead, Entity.constructorBody, here, List.filterMap_cons_none (unassigned _)]
  | aggregate here => rfl

/-- The edited member keeps its place among the computed members. -/
theorem properties (edit : Edited entity edited old new) :
    ∃ earlier later, entity.properties = earlier ++ old :: later ∧
      edited.properties = earlier ++ new :: later := by
  cases edit with
  | @lookup before behind name old new here =>
    refine ⟨before.filterMap Lookup.property?, behind.filterMap Lookup.property? ++
      entity.fields.filterMap Field.property? ++ entity.aggregates.map Aggregate.property, ?_, ?_⟩
    · simp [Entity.properties, here, Lookup.property?]
    · simp [Entity.properties, Lookup.property?]
  | @field before behind name old new description here =>
    refine ⟨entity.lookups.filterMap Lookup.property? ++ before.filterMap Field.property?,
      behind.filterMap Field.property? ++ entity.aggregates.map Aggregate.property, ?_, ?_⟩
    · simp [Entity.properties, here, Field.property?]
    · simp [Entity.properties, Field.property?]
  | @aggregate before behind name old new description here =>
    refine ⟨entity.lookups.filterMap Lookup.property? ++ entity.fields.filterMap Field.property? ++
      before.map Aggregate.property, behind.map Aggregate.property, ?_, ?_⟩
    · simp [Entity.properties, here, Aggregate.property]
    · simp [Entity.properties, Aggregate.property]

end Edited

namespace ClassCode

variable {entity : Entity} {earlier later : List Property} {property : Property}
  (split : entity.properties = earlier ++ property :: later)
include split

/-- The lines of a class around the accessor of one member. -/
theorem lines_around :
    (ofEntity entity).lines = (entity.classHead ++ earlier.flatMap Property.block) ++
      property.block ++ later.flatMap Property.block := by
  have all : (ofEntity entity).lines =
      entity.classHead ++ entity.properties.flatMap Property.block := by
    simp only [ofEntity, List.flatMap_map]
    rfl
  rw [all, split, List.flatMap_append, List.flatMap_cons, List.append_assoc, List.append_assoc]

/-- The failures of a class around that of one member. -/
theorem failures_around :
    (ofEntity entity).failures = earlier.filterMap (Property.failure? entity.name) ++
      (property.failure? entity.name).toList ++
      later.filterMap (Property.failure? entity.name) := by
  have all : (ofEntity entity).failures =
      entity.properties.filterMap (Property.failure? entity.name) := by
    simp only [ofEntity, List.filterMap_map]
    rfl
  rw [all, split, List.filterMap_append, List.filterMap_cons]
  cases property.failure? entity.name <;> simp

end ClassCode

namespace Property

theorem block_eq (property : Property) : ∃ body, property.block = header property.name ++ body ∧
    decorator ∉ body := by
  refine ⟨property.rule.docstring ++ (Accessor.ofProperty property).body, ?_, ?_⟩
  · simp [block, Accessor.lines, header, decorator, Accessor.ofProperty]
  · -- The lines of a docstring and of a body stand deeper than a decorator.
    have deeper : ∀ line ∈ property.rule.docstring ++ (Accessor.ofProperty property).body,
        line.depth = 2 := by
      intro line member
      rcases List.mem_append.1 member with doc | body
      · cases kind : property.rule <;> rw [kind] at doc <;> simp [Rule.docstring] at doc <;> grind
      · rw [Accessor.body] at body
        split at body <;> simp at body <;> grind
    intro member
    exact absurd (deeper decorator member) (by decide)

/-- The failure of a member is its own. -/
theorem filter_failure? (entity : String) (property : Property) :
    (property.failure? entity).toList.filter (·.member ≠ property.name) = [] := by
  rw [failure?, Accessor.failure?]
  split
  · rfl
  · simp [Accessor.ofProperty]

/-- The text of a class around the accessor of one member: what stands behind it is empty, or
starts with a line feed. -/
theorem blockText_around (property : Property) {front : List Line} (nonempty : front ≠ [])
    (back : List Line) :
    "\n".intercalate ((front ++ property.block ++ back).map Line.render) =
      ("\n".intercalate (front.map Line.render) ++ "\n") ++ property.blockText ++
        (if back = [] then "" else "\n" ++ "\n".intercalate (back.map Line.render)) := by
  obtain ⟨body, spelled, _⟩ := property.block_eq
  have full : property.block.map Line.render ≠ [] := by simp [spelled, header]
  have before : front.map Line.render ≠ [] := by simpa using nonempty
  rw [blockText, List.map_append, List.map_append]
  split
  · rename_i empty
    rw [empty, List.map_nil, List.append_nil, String.intercalate_append_of_ne_nil before full,
      String.append_empty]
  · rename_i more
    rw [String.intercalate_append_of_ne_nil (by simp [nonempty]) (by simpa using more),
      String.intercalate_append_of_ne_nil before full, String.append_assoc]

end Property

/-- Whatever the formula of one member is replaced by, the class and its failures change at that
member only. -/
theorem framed_of_edited {entity edited : Entity} {old new : Property}
    (edit : Edited entity edited old new) : Framed entity edited old new := by
  obtain ⟨earlier, later, before, after⟩ := edit.properties
  have lines := ClassCode.lines_around before
  have lines' := ClassCode.lines_around after
  have failures := ClassCode.failures_around before
  have failures' := ClassCode.failures_around after
  rw [edit.classHead] at lines'
  rw [edit.entity_name] at failures'
  have front : entity.classHead ++ earlier.flatMap Property.block ≠ [] := by
    simp [Entity.classHead]
  obtain ⟨body, block, plain⟩ := old.block_eq
  obtain ⟨body', block', plain'⟩ := new.block_eq
  rw [edit.property_name] at block'
  have own := old.filter_failure? entity.name
  have own' := new.filter_failure? entity.name
  rw [edit.property_name] at own'
  constructor
  · exact ⟨earlier, later, before, after, lines, lines'⟩
  · have text := old.blockText_around front (later.flatMap Property.block)
    have text' := new.blockText_around front (later.flatMap Property.block)
    rw [← lines] at text
    rw [← lines'] at text'
    exact ⟨_, _, text, text'⟩
  · exact ⟨body, body', block, block', plain, plain'⟩
  · exact ⟨_, _, failures, failures'⟩
  · rw [failures, failures']
    simp only [List.filter_append, own, own']

/-- An entity with a derived lookup, a calculated field and an aggregate. -/
def sampleEntity (formula : String) : Entity where
  name := "Grid"
  fields := [⟨"width", .stored "number"⟩, ⟨"half", .calculated formula "Half the width"⟩]
  lookups := [⟨"cells", .oneToMany⟩, ⟨"sizes", .derived "this.cells.size"⟩]
  aggregates := [⟨"total", "SUM(cells => size)", ""⟩]

/-- A good formula is replaced by one with an unknown function. -/
theorem framed_of_edited_unknown :
    (Formula.compile "DIVIDE(width, 2)").result.toOption.isSome = true ∧
      (Formula.compile "HALVE(width)").result.toOption.isSome = false ∧
      Framed (sampleEntity "DIVIDE(width, 2)") (sampleEntity "HALVE(width)")
        ⟨"half", .formula "DIVIDE(width, 2)" "Half the width"⟩
        ⟨"half", .formula "HALVE(width)" "Half the width"⟩ := by
  have edit : Edited (sampleEntity "DIVIDE(width, 2)") (sampleEntity "HALVE(width)")
      ⟨"half", .formula "DIVIDE(width, 2)" "Half the width"⟩
      ⟨"half", .formula "HALVE(width)" "Half the width"⟩ :=
    @Edited.field _ [⟨"width", .stored "number"⟩] [] _ _ _ _ rfl
  exact ⟨by decide +kernel, by decide +kernel, framed_of_edited edit⟩

end Formulary
