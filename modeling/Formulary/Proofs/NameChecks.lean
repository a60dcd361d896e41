import Mathlib
import Formulary.Rulebook.Load

set_option autoImplicit false

namespace Formulary

/-- The text is this JSON value, with nothing but blanks around it. -/
def JsonValue.HeldBy (value : JsonValue) (text : String) : Prop :=
  ∃ rest, JsonValue.read? text = some (value, rest) ∧ JsonReader.skipSpace rest = []

theorem Rulebook.ofText_eq {text : String} {value : JsonValue} (held : value.HeldBy text) :
    ofText text = ofJson value := by
  obtain ⟨rest, read, blank⟩ := held
  rw [ofText, ofJson, read]
  simp only [blank, ↓reduceIte]

namespace Document

theorem requiredText_eq_some_iff {field : Option JsonValue} {text : String} :
    requiredText field = some text ↔ field = some (.string text) := by
  rcases field with _ | (_ | _ | _ | _ | _ | _) <;> simp [requiredText, text?]

theorem fieldKind_eq (typeName : Option String) (formula description : String) :
    fieldKind typeName formula description =
      if typeName = some "calculated" then .calculated formula description
      else .stored (typeName.getD "scalar") := by
  unfold fieldKind
  split <;> simp_all

theorem relation_eq (typeName target joinCondition : Option String) :
    relation typeName target joinCondition =
      ((if target = some "this" then joinCondition else none).map .derived).getD
        (if typeName = some "one_to_many" then .oneToMany
          else if typeName = some "many_to_many" then .manyToMany
          else .reference) := by
  have underived (other : ∀ condition, target = some "this" → joinCondition ≠ some condition) :
      (if target = some "this" then joinCondition else none) = none := by
    by_cases own : target = some "this"
    · rw [if_pos own, Option.eq_none_iff_forall_ne_some]
      exact fun condition => other condition own
    · exact if_neg own
  unfold relation
  split <;> simp_all

/-- A field is a record with a name. It is calculated if its type is `calculated`, by the formula
and with the description of the record. Otherwise it is stored, with the type that it is given. -/
theorem field?_eq_some_iff {value : JsonValue} {field : Field} :
    field? value = some field ↔
      ∃ typeEntry formulaEntry remarkEntry typeName formula remark,
        record [["name"], ["type"], ["formula"], ["description"]] value =
          some [some (.string field.name), typeEntry, formulaEntry, remarkEntry] ∧
        optionalText typeEntry = some typeName ∧ textOrEmpty formulaEntry = some formula ∧
        textOrEmpty remarkEntry = some remark ∧
        field.kind = if typeName = some "calculated" then .calculated formula remark
          else .stored (typeName.getD "scalar") := by
  simp only [← fieldKind_eq]
  constructor
  · intro read
    obtain ⟨entries, recorded, read⟩ := Option.bind_eq_some_iff.1 read
    split at read
    · simp only [Option.bind_eq_bind, Option.bind_eq_some_iff, requiredText_eq_some_iff] at read
      obtain ⟨name, rfl, typeName, isType, formula, isFormula, remark, isRemark, same⟩ := read
      cases same
      exact ⟨_, _, _, _, _, _, recorded, isType, isFormula, isRemark, rfl⟩
    · cases read
  · rintro ⟨_, _, _, _, _, _, recorded, isType, isFormula, isRemark, isKind⟩
    obtain ⟨name, kind⟩ := field
    simp only at isKind
    simp [field?, recorded, requiredText, text?, isType, isFormula, isRemark, isKind]

/-- A lookup is a record with a name. It is derived if its target is `this` and it has a join
condition; otherwise its type decides whether it is a collection. -/
theorem lookup?_eq_some_iff {value : JsonValue} {lookup : Lookup} :
    lookup? value = some lookup ↔
      ∃ typeEntry targetEntry joinEntry typeName target joinCondition,
        record [["name"], ["type"], ["target_entity", "targetEntity"],
            ["join_condition", "joinCondition"]] value =
          some [some (.string lookup.name), typeEntry, targetEntry, joinEntry] ∧
        optionalText typeEntry = some typeName ∧ optionalText targetEntry = some target ∧
        optionalText joinEntry = some joinCondition ∧
        lookup.relation =
          ((if target = some "this" then joinCondition else none).map .derived).getD
            (if typeName = some "one_to_many" then .oneToMany
              else if typeName = some "many_to_many" then .manyToMany
              else .reference) := by
  simp only [← relation_eq]
  constructor
  · intro read
    obtain ⟨entries, recorded, read⟩ := Option.bind_eq_some_iff.1 read
    split at read
    · simp only [Option.bind_eq_bind, Option.bind_eq_some_iff, requiredText_eq_some_iff] at read
      obtain ⟨name, rfl, typeName, isType, target, isTarget, join, isJoin, same⟩ := read
      cases same
      exact ⟨_, _, _, _, _, _, recorded, isType, isTarget, isJoin, rfl⟩
    · cases read
  · rintro ⟨_, _, _, _, _, _, recorded, isType, isTarget, isJoin, isRelation⟩
    obtain ⟨name, relation⟩ := lookup
    simp only at isRelation
    simp [lookup?, recorded, requiredText, text?, isType, isTarget, isJoin, isRelation]

end Document

/-- The elements of a list, each with those before it. -/
def withEarlier {α : Type} (items : List α) : List (α × List α) := items.zip items.inits

namespace Entity

end Entity

section Earlier

variable {α : Type}

@[simp] theorem withEarlier_nil : withEarlier ([] : List α) = [] := rfl

end Earlier

namespace Rulebook

end Rulebook

namespace Rulebook

end Rulebook

end Formulary
