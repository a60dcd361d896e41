import Mathlib
import Formulary.Output.Module
import Formulary.Proofs.Dependencies
import Formulary.Proofs.Fragments

set_option autoImplicit false

namespace Formulary

namespace Text

/-- The bytes of a text in UTF-8. -/
def bytes (s : String) : List UInt8 := s.toByteArray.data.toList

theorem bytes_eq_flatMap (s : String) : bytes s = s.toList.flatMap String.utf8EncodeChar := by
  rw [bytes, ← String.utf8Encode_toList, List.utf8Encode, List.data_toByteArray]

/-- Bytes are compared as the numbers they hold, and after equal bytes the rest decides. -/
private theorem cons_ofNat_lt {m n : Nat} {left right : List UInt8} (small : m < 256)
    (fits : n < 256) :
    UInt8.ofNat m :: left < UInt8.ofNat n :: right ↔ m < n ∨ m = n ∧ left < right := by
  rw [List.cons_lt_cons_iff, UInt8.lt_iff_toNat_lt, ← UInt8.toNat_inj, UInt8.toNat_ofNat',
    UInt8.toNat_ofNat', Nat.mod_eq_of_lt small, Nat.mod_eq_of_lt fits]

/-- A smaller character has smaller bytes, whatever follows either of them. -/
theorem utf8EncodeChar_append_lt {c d : Char} (less : c < d) (left right : List UInt8) :
    String.utf8EncodeChar c ++ left < String.utf8EncodeChar d ++ right := by
  have below : c.val.toNat < d.val.toNat := UInt32.lt_iff_toNat_lt.1 less
  have bound : d.val.toNat < 0x110000 := by
    have valid := d.valid
    simp only [UInt32.isValidChar, Nat.isValidChar] at valid
    omega
  simp only [String.utf8EncodeChar]
  generalize c.val.toNat = m at below ⊢
  generalize d.val.toNat = n at below bound ⊢
  by_cases short : m ≤ 65535
  · split_ifs <;> simp (disch := omega) only [List.cons_append, List.nil_append, cons_ofNat_lt]
    all_goals omega
  · -- Both take four bytes, and the first in which they differ decides.
    have high : m / 262144 < n / 262144 ∨ m / 262144 = n / 262144 := by omega
    have middle : m / 4096 < n / 4096 ∨ m / 4096 = n / 4096 := by omega
    have low : m / 64 < n / 64 ∨ m / 64 = n / 64 := by omega
    have long (k : Nat) (least : m ≤ k) : ¬ k ≤ 127 ∧ ¬ k ≤ 2047 ∧ ¬ k ≤ 65535 := by omega
    simp only [long m (Nat.le_refl m), long n below.le, ↓reduceIte]
    simp (disch := omega) only [List.cons_append, List.nil_append, cons_ofNat_lt]
    rcases high with high | high
    · omega
    · rcases middle with middle | middle
      · omega
      · rcases low with low | low <;> omega

/-- The order of code points is the order of the bytes. -/
theorem bytes_lt_bytes {s t : String} (less : s < t) : bytes s < bytes t := by
  rw [String.lt_iff] at less
  rw [bytes_eq_flatMap, bytes_eq_flatMap]
  generalize s.toList = cs at less ⊢
  generalize t.toList = ds at less ⊢
  induction less with
  | @nil d ds =>
    have nonempty : String.utf8EncodeChar d ≠ [] := by
      apply List.ne_nil_of_length_pos
      rw [String.length_utf8EncodeChar]
      exact d.utf8Size_pos
    obtain ⟨byte, more, spelled⟩ := List.exists_cons_of_ne_nil nonempty
    rw [List.flatMap_nil, List.flatMap_cons, spelled, List.cons_append]
    exact List.nil_lt_cons _ _
  | rel less =>
    simp only [List.flatMap_cons]
    exact utf8EncodeChar_append_lt less _ _
  | cons _ ih =>
    simp only [List.flatMap_cons]
    exact List.append_left_lt ih

end Text

/-- The failure of a member, if its rule was not compiled. -/
def Failure.ofResult {α : Type} (entity member formula : String) :
    Except Fault α → Option Failure
  | .ok _ => none
  | .error fault => some ⟨entity, member, formula, fault⟩

namespace Lookup

/-- Only a derived lookup can fail. -/
def failure? (entity : String) (lookup : Lookup) : Option Failure :=
  match lookup.relation with
  | .derived condition => Failure.ofResult entity lookup.name condition (joinCollection condition)
  | _ => none

end Lookup

namespace Field

def formula? (field : Field) : Option String :=
  match field.kind with
  | .stored _ => none
  | .calculated formula _ => some formula

/-- Only a calculated field can fail. -/
def failure? (entity : String) (field : Field) : Option Failure :=
  field.formula?.bind fun formula =>
    Failure.ofResult entity field.name formula (Formula.compile formula).result

end Field

namespace Aggregate

def failure? (entity : String) (aggregate : Aggregate) : Option Failure :=
  Failure.ofResult entity aggregate.name aggregate.formula
    (Formula.compile aggregate.formula).result

end Aggregate

namespace Entity

/-- The formulas of the calculated fields and of the aggregates. -/
def formulas (entity : Entity) : List String :=
  entity.fields.filterMap Field.formula? ++ entity.aggregates.map Aggregate.formula

/-- The failures of derived lookups, calculated fields and aggregates, each in the order in which
they are declared. -/
def failures (entity : Entity) : List Failure :=
  entity.lookups.filterMap (Lookup.failure? entity.name) ++
    entity.fields.filterMap (Field.failure? entity.name) ++
    entity.aggregates.filterMap (Aggregate.failure? entity.name)

end Entity

namespace Rulebook

def formulas (rulebook : Rulebook) : List String := rulebook.entities.flatMap Entity.formulas

/-- The needs of all classes. -/
def needs (rulebook : Rulebook) : Needs := .joinAll (rulebook.classes.map ClassCode.needs)

end Rulebook

/-- The formula of a rule that is not a join. -/
def Rule.formula? : Rule → Option String
  | join _ => none
  | formula text _ => some text

/-- What a formula needs, which is nothing if it cannot be compiled. -/
def Formula.needs (formula : String) : Needs :=
  match (compile formula).result with
  | .ok fragment => fragment.needs
  | .error _ => .none

namespace Accessor

theorem needs_formula (name text description : String) :
    (ofProperty ⟨name, .formula text description⟩).needs = Formula.needs text := by
  rw [needs, Formula.needs]
  rfl

theorem needs_join (name condition : String) :
    (ofProperty ⟨name, .join condition⟩).needs = .none := by
  simp only [needs, ofProperty, Rule.compile, Traced.result_ofExcept]
  cases joinCollection condition <;> rfl

theorem failure?_ofProperty (entity : String) (property : Property) :
    (ofProperty property).failure? entity =
      Failure.ofResult entity property.name property.rule.source property.rule.compile.result := by
  simp only [failure?, ofProperty]
  cases property.rule.compile.result <;> rfl

end Accessor

theorem Failure.ofResult_map {α β : Type} (entity member formula : String) (f : α → β)
    (result : Except Fault α) :
    Failure.ofResult entity member formula (result.map f) =
      Failure.ofResult entity member formula result := by
  cases result <;> rfl

namespace Entity

/-- The three kinds of members fail as their own rules do. -/
theorem filterMap_failure? (entity : Entity) :
    (entity.properties.map Accessor.ofProperty).filterMap (Accessor.failure? entity.name) =
      entity.failures := by
  have lookups (lookup : Lookup) :
      (lookup.property?.bind fun property =>
        (Accessor.ofProperty property).failure? entity.name) = lookup.failure? entity.name := by
    cases kind : lookup.relation <;>
      simp [Lookup.property?, Lookup.failure?, kind, Accessor.failure?_ofProperty, Rule.source,
        Rule.compile, Failure.ofResult_map]
  have fields (field : Field) :
      (field.property?.bind fun property =>
        (Accessor.ofProperty property).failure? entity.name) = field.failure? entity.name := by
    cases kind : field.kind <;>
      simp [Field.property?, Field.failure?, Field.formula?, kind, Accessor.failure?_ofProperty,
        Rule.source, Rule.compile]
  have aggregates (aggregate : Aggregate) :
      (Accessor.ofProperty aggregate.property).failure? entity.name =
        aggregate.failure? entity.name := by
    rw [Accessor.failure?_ofProperty]
    rfl
  simp only [properties, failures, List.filterMap_map, List.filterMap_append,
    List.filterMap_filterMap, Function.comp_apply, lookups, fields, aggregates]

/-- The formulas of the computed members are those of the entity. -/
theorem filterMap_formula? (entity : Entity) :
    entity.properties.filterMap (·.rule.formula?) = entity.formulas := by
  have lookups (lookup : Lookup) :
      (lookup.property?.bind fun property => property.rule.formula?) = none := by
    cases kind : lookup.relation <;> simp [Lookup.property?, kind, Rule.formula?]
  have fields (field : Field) :
      (field.property?.bind fun property => property.rule.formula?) = field.formula? := by
    cases kind : field.kind <;> simp [Field.property?, Field.formula?, kind, Rule.formula?]
  have aggregates (aggregate : Aggregate) :
      aggregate.property.rule.formula? = some aggregate.formula := rfl
  simp [properties, formulas, List.filterMap_map, List.filterMap_append,
    List.filterMap_filterMap, lookups, fields, aggregates]

end Entity

namespace Formula

theorem mem_needs {formula name : String} :
    name ∈ (needs formula).blocks ↔
      ∃ fragment, (compile formula).result = .ok fragment ∧ name ∈ fragment.needs.blocks := by
  rw [needs]
  cases (compile formula).result <;> simp [Needs.none]

theorem statistics_needs {formula : String} :
    (needs formula).statistics = true ↔
      ∃ fragment, (compile formula).result = .ok fragment ∧ fragment.needs.statistics = true := by
  rw [needs]
  cases (compile formula).result <;> simp [Needs.none]

end Formula

/-- Entities that each have the same formulas have the same formulas together. -/
theorem Entity.formulas_perm {first second : List Entity}
    (same : List.Forall₂ (fun entity other => entity.formulas.Perm other.formulas) first second) :
    (first.flatMap formulas).Perm (second.flatMap formulas) := by
  induction same with
  | nil => exact .nil
  | cons here _ ih =>
    rw [List.flatMap_cons, List.flatMap_cons]
    exact here.append ih

section Additive

variable {wanted : Needs → Prop} (additive : Needs.Additive wanted)
include additive

/-- Whatever an accessor needs, its formula does: a join needs nothing. -/
theorem Property.wanted_iff (property : Property) :
    wanted (Accessor.ofProperty property).needs ↔
      ∃ formula ∈ property.rule.formula?, wanted (Formula.needs formula) := by
  obtain ⟨name, rule⟩ := property
  cases rule with
  | join condition => simp [Accessor.needs_join, Rule.formula?, additive.none]
  | formula text description => simp [Accessor.needs_formula, Rule.formula?]

theorem ClassCode.wanted_iff (entity : Entity) :
    wanted (ClassCode.ofEntity entity).needs ↔
      ∃ formula ∈ entity.formulas, wanted (Formula.needs formula) := by
  rw [← Entity.filterMap_formula?]
  simp only [ClassCode.ofEntity, Needs.joinAll_iff additive, List.map_map, List.mem_map,
    exists_exists_and_eq_and, Function.comp_apply, Property.wanted_iff additive, List.mem_filterMap,
    Option.mem_def]
  grind

theorem Rulebook.wanted_iff (rulebook : Rulebook) :
    wanted rulebook.needs ↔ ∃ formula ∈ rulebook.formulas, wanted (Formula.needs formula) := by
  simp only [Rulebook.needs, Rulebook.classes, Needs.joinAll_iff additive, List.map_map,
    List.mem_map, exists_exists_and_eq_and, Function.comp_apply, ClassCode.wanted_iff additive,
    Rulebook.formulas, List.mem_flatMap]
  grind

end Additive

/-- The needs depend on which formulas there are, not on where they stand. -/
theorem Rulebook.needs_congr {first second : Rulebook}
    (same : ∀ formula, formula ∈ first.formulas ↔ formula ∈ second.formulas) :
    first.needs = second.needs := by
  apply Needs.ext_mem
  · intro name
    simp only [Rulebook.wanted_iff (Needs.additive_block name), same]
  · simp only [Rulebook.wanted_iff Needs.additive_statistics, same]

namespace Text

/-- The rows of a text: what stands between its line feeds. -/
def rows (s : String) : List String := (s.toList.splitOn '\n').map String.ofList

/-- Lines without line feeds, with a text behind them, are rows of their own. -/
theorem rows_intercalate {lines : List String} (single : ∀ line ∈ lines, '\n' ∉ line.toList)
    (text : String) : rows ("\n".intercalate (lines ++ [text])) = lines ++ rows text := by
  induction lines with
  | nil => simp
  | cons line lines ih =>
    have later := ih fun line member => single line (by simp [member])
    obtain ⟨next, more, spelled⟩ := List.exists_cons_of_ne_nil (l := lines ++ [text]) (by simp)
    rw [List.cons_append, spelled, String.intercalate_cons_cons, ← spelled, rows,
      String.toList_append, String.toList_append, List.append_assoc,
      show "\n".toList = ['\n'] from rfl, List.singleton_append,
      List.splitOn_append_cons_self_of_not_mem (single line (by simp)), List.map_cons, ← rows,
      later, String.ofList_toList, List.cons_append]

theorem mem_intercalate {separator text : String} {texts : List String} {c : Char}
    (member : text ∈ texts) (inside : c ∈ text.toList) :
    c ∈ (separator.intercalate texts).toList := by
  induction texts with
  | nil => cases member
  | cons first texts ih =>
    cases texts with
    | nil =>
      rw [List.mem_singleton.1 member] at inside
      simpa using inside
    | cons second texts =>
      simp only [String.intercalate_cons_cons, String.toList_append, List.mem_append]
      rcases List.mem_cons.1 member with rfl | later
      · exact .inl (.inl inside)
      · exact .inr (ih later)

theorem of_mem_intercalate {separator : String} {texts : List String} {c : Char}
    (inside : c ∈ (separator.intercalate texts).toList) :
    c ∈ separator.toList ∨ ∃ text ∈ texts, c ∈ text.toList := by
  induction texts with
  | nil => simp at inside
  | cons first texts ih =>
    cases texts with
    | nil => exact .inr ⟨first, by simp, by simpa using inside⟩
    | cons second texts =>
      simp only [String.intercalate_cons_cons, String.toList_append, List.mem_append] at inside
      rcases inside with (here | between) | later
      · exact .inr ⟨first, by simp, here⟩
      · exact .inl between
      · rcases ih later with between | ⟨text, member, there⟩
        · exact .inl between
        · exact .inr ⟨text, List.mem_cons_of_mem first member, there⟩

theorem splitLines_not_mem {cs line : List Char} (member : line ∈ splitLines cs) : '\n' ∉ line := by
  induction cs generalizing line with
  | nil => cases member
  | cons c cs ih =>
    rw [splitLines] at member
    split at member
    · rcases List.mem_cons.1 member with rfl | later
      · exact List.not_mem_nil
      · exact ih later
    · rename_i feed
      split at member
      · exact ih member
      · split at member
        · rw [List.mem_singleton.1 member, List.mem_singleton]
          exact Ne.symm feed
        · rename_i first more split
          rcases List.mem_cons.1 member with rfl | later
          · rw [List.mem_cons, not_or]
            exact ⟨Ne.symm feed, ih (split ▸ List.mem_cons_self)⟩
          · exact ih (split ▸ List.mem_cons_of_mem first later)

/-- A line holds no line feed. -/
theorem lines_not_mem {s line : String} (member : line ∈ lines s) : '\n' ∉ line.toList := by
  obtain ⟨cs, inside, rfl⟩ := List.mem_map.1 member
  rw [String.toList_ofList]
  exact splitLines_not_mem inside

end Text

/-- Line feeds at the end are cut off behind the last other character. -/
theorem endLine_append {front back : String} (other : ∃ c ∈ back.toList, c ≠ '\n') :
    endLine (front ++ back) = front ++ endLine back := by
  have kept : (back.toList.reverse.dropWhile (· == '\n')).isEmpty = false := by
    obtain ⟨c, member, differs⟩ := other
    rw [List.isEmpty_eq_false_iff, Ne, List.dropWhile_eq_nil_iff]
    intro feeds
    exact differs (by simpa using feeds c (by simpa using member))
  apply String.toList_injective
  simp [endLine, List.dropWhile_append, kept]

/-- The import section of a module: the rows behind its docstring, up to the first empty one. -/
def importSection (header source : String) : List String :=
  ((Text.rows source).drop ((Text.lines header).length + 2)).takeWhile (· ≠ "")

def isFromImport (line : String) : Bool := "from ".toList.isPrefixOf line.toList

/-- The line that imports these names, if there are any. -/
def blockImports (settings : Settings) (names : List String) : List String :=
  if names = [] then []
  else ["from " ++ settings.blockModule ++ " import " ++ ", ".intercalate names]

/-- The lines are the import section of the module, and they import what it needs. -/
structure Imports (settings : Settings) (code : ModuleCode) (lines : List String) : Prop where
  /-- The lines stand between the docstring and two empty lines. -/
  written : ∃ rest, code.source = "\n".intercalate
    (tripleQuote :: Text.lines settings.header ++ [tripleQuote] ++ lines ++ ["", "", rest])
  /-- Unless the name of the module with the blocks breaks its line, they are rows of the text. -/
  rows : '\n' ∉ settings.blockModule.toList → importSection settings.header code.source = lines
  statistics : "import statistics" ∈ lines ↔ code.needs.statistics = true
  /-- One line imports the blocks, in the order of their bytes, if there are any. -/
  blocks : ∃ names : List String, names.Pairwise (Text.bytes · < Text.bytes ·) ∧
    (∀ name, name ∈ names ↔ name ∈ code.needs.blocks) ∧
    lines.filter isFromImport = blockImports settings names

theorem isFromImport_of_mem {settings : Settings} {names : List String} {line : String}
    (member : line ∈ blockImports settings names) : isFromImport line = true := by
  rw [blockImports] at member
  split at member
  · cases member
  · rw [List.mem_singleton.1 member, isFromImport, List.isPrefixOf_iff_prefix]
    simp only [String.toList_append, List.append_assoc]
    exact List.prefix_append _ _

theorem importLines_eq (settings : Settings) (needs : Needs) :
    importLines settings needs = ["import math", "import numpy as np"] ++
      (if needs.statistics then ["import statistics"] else []) ++
      blockImports settings needs.blocks.toList := by
  simp [importLines, blockImports, NameSet.isEmpty]

/-- A line of the import section is one of three known ones, or it imports the blocks. -/
theorem mem_importLines {settings : Settings} {needs : Needs} {line : String} :
    line ∈ importLines settings needs ↔
      line = "import math" ∨ line = "import numpy as np" ∨
        (needs.statistics = true ∧ line = "import statistics") ∨
        line ∈ blockImports settings needs.blocks.toList := by
  rw [importLines_eq]
  cases needs.statistics <;> simp

theorem filter_importLines (settings : Settings) (needs : Needs) :
    (importLines settings needs).filter isFromImport =
      blockImports settings needs.blocks.toList := by
  have others : (["import math", "import numpy as np"] ++
      (if needs.statistics then ["import statistics"] else [])).filter isFromImport = [] := by
    cases needs.statistics <;> decide
  rw [importLines_eq, List.filter_append, others, List.nil_append, List.filter_eq_self]
  exact fun _ => isFromImport_of_mem

theorem statistics_mem_importLines (settings : Settings) (needs : Needs) :
    "import statistics" ∈ importLines settings needs ↔ needs.statistics = true := by
  rw [mem_importLines]
  constructor
  · rintro (same | same | ⟨needed, _⟩ | block)
    · exact absurd same (by decide)
    · exact absurd same (by decide)
    · exact needed
    · exact absurd (isFromImport_of_mem block) (by decide)
  · intro needed
    exact .inr (.inr (.inl ⟨needed, rfl⟩))

theorem ne_empty_of_mem_importLines {settings : Settings} {needs : Needs} {line : String}
    (member : line ∈ importLines settings needs) : line ≠ "" := by
  rintro rfl
  rcases mem_importLines.1 member with same | same | ⟨_, same⟩ | block
  · exact absurd same (by decide)
  · exact absurd same (by decide)
  · exact absurd same (by decide)
  · exact absurd (isFromImport_of_mem block) (by decide)

namespace ModuleCode

/-- The lines of a module behind its imports. -/
def linesBehind (settings : Settings) (classes : List ClassCode) : List String :=
  sharedCode ++ ["", classesMarker, ""] ++ (classes.flatMap fun code => [code.text, "", ""]) ++
    (if settings.sampleMain then sampleEntryPoint else [])

theorem source_eq (settings : Settings) (rulebook : Rulebook) :
    (ofRulebook settings rulebook).source = "\n".intercalate
      (tripleQuote :: Text.lines settings.header ++ [tripleQuote] ++
        importLines settings rulebook.needs ++
        ["", "", endLine ("\n".intercalate (linesBehind settings rulebook.classes))]) := by
  have whole : lines settings rulebook.needs rulebook.classes =
      (tripleQuote :: Text.lines settings.header ++ [tripleQuote] ++
        importLines settings rulebook.needs ++ ["", ""]) ++
      linesBehind settings rulebook.classes := by
    simp [lines, linesBehind]
  have behind : linesBehind settings rulebook.classes ≠ [] := by
    simp [linesBehind, sharedCode]
  have other : ∃ c ∈ ("\n".intercalate (linesBehind settings rulebook.classes)).toList,
      c ≠ '\n' := by
    have first : "import uuid" ∈ linesBehind settings rulebook.classes := by
      simp [linesBehind, sharedCode]
    exact ⟨'u', Text.mem_intercalate first (by decide), by decide⟩
  show endLine ("\n".intercalate (lines settings rulebook.needs rulebook.classes)) = _
  rw [whole, String.intercalate_append_of_ne_nil (by simp) behind, endLine_append other,
    ← String.intercalate_singleton (s := "\n")
      (t := endLine ("\n".intercalate (linesBehind settings rulebook.classes))),
    ← String.intercalate_append_of_ne_nil (by simp) (by simp)]
  simp

/-- Building blocks have names without line feeds. -/
theorem not_mem_of_mem_needs {rulebook : Rulebook} {name : String}
    (member : name ∈ rulebook.needs.blocks) : '\n' ∉ name.toList := by
  have known : ∀ block ∈ Signature.buildingBlocks, '\n' ∉ block.toList := by decide
  apply known
  obtain ⟨formula, _, wanted⟩ := (rulebook.wanted_iff (Needs.additive_block name)).1 member
  obtain ⟨fragment, success, needed⟩ := Formula.mem_needs.1 wanted
  obtain ⟨expr, parsed, rfl⟩ := Formula.compile_eq_ok.1 success
  obtain ⟨tokens, _, ⟨_, rfl⟩ | reads⟩ := Formula.reads_of_parse parsed
  · exact absurd needed (NameSet.not_mem_empty name)
  · exact (((needsFor_item.1 (needsFor_of_reads reads)).blocks name).1 needed).1

theorem importLines_not_mem {settings : Settings} {rulebook : Rulebook}
    (single : '\n' ∉ settings.blockModule.toList) {line : String}
    (member : line ∈ importLines settings rulebook.needs) : '\n' ∉ line.toList := by
  rcases mem_importLines.1 member with rfl | rfl | ⟨_, rfl⟩ | block
  · decide
  · decide
  · decide
  · rw [blockImports] at block
    split at block
    · cases block
    · rw [List.mem_singleton.1 block]
      simp only [String.toList_append, List.mem_append, not_or]
      refine ⟨⟨⟨by decide, single⟩, by decide⟩, ?_⟩
      intro feed
      rcases Text.of_mem_intercalate feed with between | ⟨name, needed, inside⟩
      · exact absurd between (by decide)
      · exact not_mem_of_mem_needs needed inside

/-- If no line breaks, the import section can be read off the rows of the text. -/
theorem importSection_source {settings : Settings} (single : '\n' ∉ settings.blockModule.toList)
    (rulebook : Rulebook) :
    importSection settings.header (ofRulebook settings rulebook).source =
      importLines settings rulebook.needs := by
  have docstring : '\n' ∉ tripleQuote.toList := by decide
  have singles : ∀ line ∈ tripleQuote :: Text.lines settings.header ++ [tripleQuote] ++
      importLines settings rulebook.needs ++ ["", ""], '\n' ∉ line.toList := by
    intro line member
    simp only [List.cons_append, List.mem_cons, List.mem_append, List.not_mem_nil, or_false]
      at member
    rcases member with rfl | ((header | rfl) | imported) | rfl | rfl
    · exact docstring
    · exact Text.lines_not_mem header
    · exact docstring
    · exact importLines_not_mem single imported
    · exact List.not_mem_nil
    · exact List.not_mem_nil
  have nonempty : ∀ line ∈ importLines settings rulebook.needs, decide (line ≠ "") = true :=
    fun line member => decide_eq_true (ne_empty_of_mem_importLines member)
  rw [source_eq, show ["", "", endLine ("\n".intercalate (linesBehind settings rulebook.classes))] =
    ["", ""] ++ [endLine ("\n".intercalate (linesBehind settings rulebook.classes))] from rfl,
    ← List.append_assoc, importSection, Text.rows_intercalate singles]
  have length : (tripleQuote :: Text.lines settings.header ++ [tripleQuote]).length =
      (Text.lines settings.header).length + 2 := by simp
  simp only [List.append_assoc (tripleQuote :: Text.lines settings.header ++ [tripleQuote])]
  rw [List.drop_left' length, List.append_assoc, List.takeWhile_append_of_pos nonempty]
  simp

theorem imports_importLines (settings : Settings) (rulebook : Rulebook) :
    Imports settings (ofRulebook settings rulebook) (importLines settings rulebook.needs) where
  written := ⟨_, source_eq settings rulebook⟩
  rows single := importSection_source single rulebook
  statistics := statistics_mem_importLines settings rulebook.needs
  blocks := by
    refine ⟨rulebook.needs.blocks.toList, ?_, fun _ => Iff.rfl, ?_⟩
    · exact rulebook.needs.blocks.sorted.imp Text.bytes_lt_bytes
    · exact filter_importLines settings rulebook.needs

/-- A run reports exactly what its rulebook says: each rule that cannot be compiled is one failure,
in the order of entities and members; the needs are those of the formulas that can be compiled; the
imports are those needs; and the order of entities and formulas makes no difference to the needs. -/
theorem ofRulebook_report (settings : Settings) (rulebook : Rulebook) :
    let code := ofRulebook settings rulebook
    code.failures = rulebook.entities.flatMap Entity.failures ∧
    (∀ name, name ∈ code.needs.blocks ↔ ∃ formula ∈ rulebook.formulas, ∃ fragment,
      (Formula.compile formula).result = .ok fragment ∧ name ∈ fragment.needs.blocks) ∧
    (code.needs.statistics = true ↔ ∃ formula ∈ rulebook.formulas, ∃ fragment,
      (Formula.compile formula).result = .ok fragment ∧ fragment.needs.statistics = true) ∧
    Imports settings code (importLines settings code.needs) ∧
    ∀ reordered others : List Entity,
      List.Forall₂ (fun entity other => entity.formulas.Perm other.formulas)
        rulebook.entities reordered →
      reordered.Perm others → (ofRulebook settings ⟨others⟩).needs = code.needs := by
  refine ⟨?_, ?_, ?_, imports_importLines settings rulebook, ?_⟩
  · show rulebook.classes.flatMap ClassCode.failures = _
    simp only [Rulebook.classes, List.flatMap_map, ClassCode.ofEntity, Entity.filterMap_failure?]
  · intro name
    simp only [← Formula.mem_needs]
    exact rulebook.wanted_iff (Needs.additive_block name)
  · simp only [← Formula.statistics_needs]
    exact rulebook.wanted_iff Needs.additive_statistics
  · intro reordered others perEntity moved
    apply Rulebook.needs_congr
    intro formula
    have across := moved.flatMap_right Entity.formulas
    exact ((Entity.formulas_perm perEntity).trans across).symm.mem_iff

end ModuleCode

end Formulary
