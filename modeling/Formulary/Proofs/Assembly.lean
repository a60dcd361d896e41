import Mathlib
import Formulary.Proofs.LineBreaks

set_option autoImplicit false

namespace Formulary

/-- The text is not empty, and its last character is no line feed. -/
def Shut (text : String) : Prop := ∃ c ∈ text.toList.getLast?, c ≠ '\n'

theorem Shut.append {text : String} (shut : Shut text) (front : String) : Shut (front ++ text) := by
  obtain ⟨c, last, other⟩ := shut
  refine ⟨c, ?_, other⟩
  rw [String.toList_append, List.getLast?_append, Option.mem_def.1 last]
  rfl

/-- Text without line feeds at its end may be added to a text that does not end with one. -/
theorem Shut.append_right {front text : String} (shut : Shut front)
    (ends : ∀ c ∈ text.toList.getLast?, c ≠ '\n') : Shut (front ++ text) := by
  cases last : text.toList.getLast? with
  | none =>
    have empty : text = "" := by simpa using last
    rwa [empty, String.append_empty]
  | some c => exact Shut.append ⟨c, last, ends c last⟩ front

theorem Shut.intercalate {texts : List String} {last : String} (ends : texts.getLast? = some last)
    (shut : Shut last) (separator : String) : Shut (separator.intercalate texts) := by
  obtain ⟨front, rfl⟩ := List.getLast?_eq_some_iff.1 ends
  by_cases empty : front = []
  · simpa [empty] using shut
  · rw [String.intercalate_append_of_ne_nil empty (by simp), String.intercalate_singleton]
    exact shut.append _

theorem Line.shut_render {line : Line} (shut : Shut line.text) : Shut line.render := shut.append _

theorem oneLine_not_mem (text : String) : '\n' ∉ (oneLine text).toList := by
  intro member
  rcases Text.of_mem_intercalate member with between | ⟨trimmed, listed, inside⟩
  · simp at between
  · obtain ⟨_, there, rfl⟩ := List.mem_map.1 listed
    obtain ⟨line, here, rfl⟩ := List.mem_map.1 there
    rw [Text.trim, String.toList_ofList, String.toList_ofList] at inside
    exact Text.splitLines_not_mem here (Text.mem_of_mem_trim inside)

namespace Sweep

/-- If a literal is open, its quote does not end a line. -/
def Quoted : Sweep → Prop
  | literal quote _ => isLineEnd quote = false
  | escape quote _ => isLineEnd quote = false
  | _ => True

theorem extend_quoted {place next : Sweep} {c : Char} (more : place.extend c = some next) :
    next.Quoted := by
  unfold extend at more
  split at more
  · cases more
    trivial
  · split at more <;> cases more
    trivial
  · cases more
    split <;> trivial

theorem leave_quoted {next : Sweep} {c : Char} (left : leave c = some next) : next.Quoted := by
  have flat := (leave_opened left).1
  unfold leave at left
  split at left
  · cases left
    exact flat
  · split at left <;> cases left
    trivial

theorem step_quoted {place next : Sweep} {c : Char} {here : List String} (known : place.Quoted)
    (steps : place.step c = some (next, here)) : next.Quoted := by
  have outside (between : place = gap ∨ place = digits ∨ ∃ spelled, place = word spelled) :
      next.Quoted := by
    have split : (if Lexeme.isWordPart c then (place.extend c).map (·, ([] : List String))
        else if place.closes then (leave c).map (·, []) else none) = some (next, here) := by
      rcases between with rfl | rfl | ⟨spelled, rfl⟩ <;> exact steps
    split at split
    · obtain ⟨_, more, same⟩ := Option.map_eq_some_iff.1 split
      cases same
      exact extend_quoted more
    · split at split
      · obtain ⟨_, left, same⟩ := Option.map_eq_some_iff.1 split
        cases same
        exact leave_quoted left
      · cases split
  cases place with
  | literal quote taken =>
    simp only [step] at steps
    split at steps
    · cases steps
      trivial
    · split at steps <;> cases steps <;> exact known
  | escape quote taken =>
    cases steps
    exact known
  | gap => exact outside (.inl rfl)
  | digits => exact outside (.inr (.inl rfl))
  | word spelled => exact outside (.inr (.inr ⟨spelled, rfl⟩))

theorem run_quoted {place final : Sweep} {cs : List Char} {found : List String}
    (known : place.Quoted) (swept : place.run cs = some (final, found)) : final.Quoted := by
  induction cs generalizing place found with
  | nil =>
    cases swept
    exact known
  | cons c cs ih =>
    obtain ⟨next, here, others, steps, later, rfl⟩ := run_cons_eq_some.1 swept
    exact ih (step_quoted known steps) later

/-- A sweep that has come out of all literals has not passed the end of a line with its last
step. -/
theorem step_closes {place next : Sweep} {c : Char} {here : List String} (known : place.Quoted)
    (steps : place.step c = some (next, here)) (closed : next.closes = true) :
    isLineEnd c = false := by
  cases place with
  | literal quote taken =>
    simp only [step] at steps
    split at steps
    · rename_i same
      rw [same]
      exact known
    · split at steps <;> cases steps <;> cases closed
  | escape quote taken =>
    cases steps
    cases closed
  | gap => exact (step_outside (.inl rfl) steps).2.1
  | digits => exact (step_outside (.inr (.inl rfl)) steps).2.1
  | word spelled => exact (step_outside (.inr (.inr ⟨spelled, rfl⟩)) steps).2.1

end Sweep

/-- Code does not end with the end of a line. -/
theorem Carries.last {code : String} {found : Multiset String} (carries : Carries code found) :
    ∀ c ∈ code.toList.getLast?, isLineEnd c = false := by
  intro c last
  obtain ⟨front, split⟩ := List.getLast?_eq_some_iff.1 last
  obtain ⟨final, list, swept, closed, -⟩ := carries .gap rfl
  rw [split] at swept
  obtain ⟨place, _, _, before, behind, -⟩ := Sweep.run_append.1 swept
  obtain ⟨next, here, _, steps, ends, -⟩ := Sweep.run_cons_eq_some.1 behind
  cases ends
  have known : Sweep.Quoted .gap := trivial
  exact Sweep.step_closes (Sweep.run_quoted known before) steps closed

theorem Field.shut_assignment {field : Field} {line : Line}
    (written : field.assignment? = some line) : Shut line.text := by
  unfold assignment? at written
  split at written
  · cases written
  · rename_i typeName _
    have code : Shut ("self." ++ field.name ++ " = kwargs.get('" ++ field.name ++ "')") :=
      Shut.append ⟨')', rfl, by decide⟩ _
    dsimp only at written
    split at written <;> cases written
    · exact code
    · have mark : Shut "  # " := ⟨' ', rfl, by decide⟩
      refine (mark.append _).append_right fun c last => ?_
      rintro rfl
      exact oneLine_not_mem typeName (List.mem_of_getLast? last)

/-- The constructor has a line for each stored field and for no other. -/
theorem Entity.storedFields_eq (entity : Entity) :
    entity.storedFields = entity.fields.filter fun field => field.assignment?.isSome := by
  refine List.filter_congr fun field _ => ?_
  unfold Field.isStored Field.assignment?
  cases field.kind with
  | calculated formula description => rfl
  | stored typeName =>
    dsimp only
    split <;> rfl

theorem Lookup.shut_assignment {lookup : Lookup} {line : Line}
    (written : lookup.assignment? = some line) : Shut line.text := by
  unfold assignment? at written
  split at written <;> cases written
  exact Shut.append ⟨')', rfl, by decide⟩ _

/-- The last line does not end with a line feed. -/
def EndShut (lines : List Line) : Prop := ∃ line ∈ lines.getLast?, Shut line.text

theorem EndShut.append {lines : List Line} (shut : EndShut lines) (front : List Line) :
    EndShut (front ++ lines) := by
  obtain ⟨line, last, ends⟩ := shut
  refine ⟨line, ?_, ends⟩
  rw [List.getLast?_append, Option.mem_def.1 last]
  rfl

theorem endShut_of_forall {lines : List Line} (nonempty : lines ≠ [])
    (each : ∀ line ∈ lines, Shut line.text) : EndShut lines :=
  ⟨_, List.getLast?_eq_some_getLast nonempty, each _ (List.getLast_mem nonempty)⟩

/-- The constructor ends with the line of a stored field or of a collection, or does nothing. -/
theorem Entity.endShut_constructorBody (entity : Entity) : EndShut entity.constructorBody := by
  have fields : ∀ line ∈ entity.fields.filterMap Field.assignment?, Shut line.text := by
    intro line member
    obtain ⟨field, -, written⟩ := List.mem_filterMap.1 member
    exact field.shut_assignment written
  have collections : ∀ line ∈ entity.lookups.filterMap Lookup.assignment?, Shut line.text := by
    intro line member
    obtain ⟨lookup, -, written⟩ := List.mem_filterMap.1 member
    exact lookup.shut_assignment written
  unfold constructorBody
  generalize entity.fields.filterMap Field.assignment? = first at fields ⊢
  generalize entity.lookups.filterMap Lookup.assignment? = second at collections ⊢
  cases second with
  | nil =>
    cases first with
    | nil => exact ⟨_, rfl, 's', rfl, by decide⟩
    | cons line lines => exact endShut_of_forall (by simp) fields
  | cons line lines =>
    have last : EndShut (line :: lines) := endShut_of_forall (by simp) collections
    cases first with
    | nil => exact last
    | cons other others => exact (last.append [.blank]).append (other :: others)

theorem Accessor.endShut_body (property : Property) : EndShut (ofProperty property).body := by
  rw [body, ofProperty]
  cases outcome : property.rule.compile.result with
  | ok fragment =>
    obtain ⟨tokens, -, carries⟩ := Rule.carries_of_compile outcome
    have word : Shut "return " := ⟨' ', rfl, by decide⟩
    refine ⟨_, rfl, word.append_right fun c last => ?_⟩
    rintro rfl
    cases carries.last '\n' last
  | error fault =>
    have word : Shut "return None" := ⟨'e', rfl, by decide⟩
    exact ⟨_, rfl, word⟩

/-- A class ends with its last accessor, or with its constructor if it has none. -/
theorem ClassCode.endShut_lines (entity : Entity) : EndShut (ofEntity entity).lines := by
  rw [ofEntity]
  cases entity.properties using List.reverseRecOn with
  | nil =>
    rw [List.map_nil, List.flatMap_nil, List.append_nil, Entity.classHead]
    exact entity.endShut_constructorBody.append _
  | append_singleton earlier property =>
    have last : EndShut (Accessor.ofProperty property).lines :=
      (Accessor.endShut_body property).append _
    rw [List.map_append, List.flatMap_append, List.map_singleton, List.flatMap_singleton]
    exact (last.append _).append _

/-- The text of a class does not end with a line feed. -/
theorem ClassCode.shut_text (entity : Entity) : Shut (ofEntity entity).text := by
  obtain ⟨line, last, shut⟩ := endShut_lines entity
  refine (Line.shut_render shut).intercalate ?_ "\n"
  rw [List.getLast?_map, Option.mem_def.1 last]
  rfl

theorem ClassCode.text_eq (entity : Entity) :
    ∃ rest, (ofEntity entity).text = "class " ++ entity.name ++ ":\n" ++ rest := by
  refine ⟨"\n".intercalate ((ofEntity entity).lines.tail.map Line.render), ?_⟩
  rw [text, ofEntity, Entity.classHead, List.cons_append, List.cons_append, List.map_cons,
    String.intercalate_cons_of_ne_nil (by simp), List.tail_cons]
  apply String.toList_injective
  simp [Line.render]

theorem endLine_of_shut {text : String} (shut : Shut text) : endLine text = text ++ "\n" := by
  obtain ⟨c, last, other⟩ := shut
  obtain ⟨front, split⟩ := List.getLast?_eq_some_iff.1 last
  apply String.toList_injective
  simp [endLine, split, other]

theorem endLine_append_feed (text : String) : endLine (text ++ "\n") = endLine text := by
  simp [endLine]

/-- A text with any other character ends with one line feed. -/
theorem exists_endLine {text : String} (other : ∃ c ∈ text.toList, c ≠ '\n') :
    ∃ body, Shut body ∧ endLine text = body ++ "\n" := by
  refine ⟨String.ofList (text.toList.reverse.dropWhile (· == '\n')).reverse, ?_, ?_⟩
  · have kept : text.toList.reverse.dropWhile (· == '\n') ≠ [] := by
      obtain ⟨c, member, differs⟩ := other
      rw [Ne, List.dropWhile_eq_nil_iff]
      intro feeds
      exact differs (by simpa using feeds c (by simpa using member))
    obtain ⟨c, cs, split⟩ := List.exists_cons_of_ne_nil kept
    have stops := List.head?_dropWhile_not (· == '\n') text.toList.reverse
    rw [split] at stops
    refine ⟨c, ?_, by simpa using stops⟩
    rw [split, String.toList_ofList]
    simp
  · apply String.toList_injective
    simp [endLine]

/-- The line feeds of two blank lines follow each class. -/
theorem intercalate_texts {texts : List String} (nonempty : texts ≠ []) :
    "\n".intercalate (texts.flatMap fun text => [text, "", ""]) =
      "\n\n\n".intercalate texts ++ "\n\n" := by
  induction texts with
  | nil => exact absurd rfl nonempty
  | cons text texts ih =>
    cases texts with
    | nil => simp [String.append_assoc]
    | cons next texts =>
      rw [List.flatMap_cons, String.intercalate_append_of_ne_nil (by simp) (by simp),
        ih (by simp), String.intercalate_cons_cons]
      simp [String.append_assoc]

namespace ModuleCode

/-- What stands before the marker of the classes: the docstring, the imports, the shared code and a
blank line. -/
def opening (settings : Settings) (needs : Needs) : String :=
  "\n".intercalate (tripleQuote :: Text.lines settings.header ++ [tripleQuote] ++
    importLines settings needs ++ ["", ""] ++ sharedCode ++ ["", ""])

/-- What stands behind the classes, before the last line feed. -/
def closing (settings : Settings) : String :=
  if settings.sampleMain then "\n\n\n" ++ "\n".intercalate sampleEntryPoint else ""

variable (settings : Settings) (rulebook : Rulebook)

theorem source_eq_endLine : (ofRulebook settings rulebook).source =
    endLine ("\n".intercalate (lines settings rulebook.needs rulebook.classes)) := rfl

/-- The text of a module with classes, before line feeds are cut off at its end. -/
theorem intercalate_lines (nonempty : rulebook.entities ≠ []) :
    "\n".intercalate (lines settings rulebook.needs rulebook.classes) =
      opening settings rulebook.needs ++ classesMarker ++ "\n\n" ++
        "\n\n\n".intercalate (rulebook.classes.map ClassCode.text) ++
        (if settings.sampleMain then closing settings else "\n\n") := by
  have classes : rulebook.classes ≠ [] := by simpa [Rulebook.classes] using nonempty
  have flat : "\n".intercalate (rulebook.classes.flatMap fun code => [code.text, "", ""]) =
      "\n\n\n".intercalate (rulebook.classes.map ClassCode.text) ++ "\n\n" := by
    rw [← intercalate_texts (by simpa using classes), List.flatMap_map]
  have full : (rulebook.classes.flatMap fun code => [code.text, "", ""]) ≠ [] := by
    obtain ⟨code, others, listed⟩ := List.exists_cons_of_ne_nil classes
    simp [listed]
  have front (before : List String) (nonempty : before ≠ []) :
      "\n".intercalate (before ++ ["", classesMarker, ""]) =
        "\n".intercalate (before ++ ["", ""]) ++ classesMarker ++ "\n" := by
    rw [String.intercalate_append_of_ne_nil nonempty (by simp),
      String.intercalate_append_of_ne_nil nonempty (by simp)]
    apply String.toList_injective
    simp
  rw [lines, opening, closing]
  cases settings.sampleMain with
  | false =>
    simp only [Bool.false_eq_true, ↓reduceIte, List.append_nil]
    rw [String.intercalate_append_of_ne_nil (by simp) full, flat, front _ (by simp)]
    simp [String.append_assoc]
  | true =>
    simp only [↓reduceIte]
    rw [String.intercalate_append_of_ne_nil (by simp) (by simp [sampleEntryPoint]),
      String.intercalate_append_of_ne_nil (by simp) full, flat, front _ (by simp)]
    simp [String.append_assoc]

/-- The source of a module ends with one line feed. Each class starts with a line of its own and
ends with no line feed. Behind the marker and a blank line the classes stand as they are, in the
order of the entities, with two blank lines between each two of them and before the sample entry
point, if there is one. -/
theorem source_assembled :
    (∃ text, Shut text ∧ (ofRulebook settings rulebook).source = text ++ "\n") ∧
    (∀ entity ∈ rulebook.entities, Shut (ClassCode.ofEntity entity).text ∧
      ∃ rest, (ClassCode.ofEntity entity).text = "class " ++ entity.name ++ ":\n" ++ rest) ∧
    (rulebook.entities ≠ [] →
      (ofRulebook settings rulebook).source =
        opening settings rulebook.needs ++ classesMarker ++ "\n\n" ++
          "\n\n\n".intercalate
            (rulebook.entities.map fun entity => (ClassCode.ofEntity entity).text) ++
          closing settings ++ "\n") := by
  refine ⟨?_, fun entity _ => ⟨ClassCode.shut_text entity, ClassCode.text_eq entity⟩,
    fun nonempty => ?_⟩
  · apply exists_endLine
    have marker : classesMarker ∈ lines settings rulebook.needs rulebook.classes := by
      simp [lines]
    exact ⟨'#', Text.mem_intercalate marker (by decide), by decide⟩
  · have texts : rulebook.classes.map ClassCode.text =
        rulebook.entities.map fun entity => (ClassCode.ofEntity entity).text := by
      simp [Rulebook.classes]
    have classes : Shut ("\n\n\n".intercalate (rulebook.classes.map ClassCode.text)) := by
      refine (ClassCode.shut_text (rulebook.entities.getLast nonempty)).intercalate ?_ "\n\n\n"
      rw [texts, List.getLast?_map, List.getLast?_eq_some_getLast nonempty]
      rfl
    rw [source_eq_endLine, intercalate_lines settings rulebook nonempty, ← texts]
    cases sample : settings.sampleMain with
    | false =>
      have feeds : "\n\n" = "\n" ++ "\n" := by decide
      simp only [closing, sample, Bool.false_eq_true, ↓reduceIte, String.append_empty]
      rw [feeds, ← String.append_assoc, endLine_append_feed, endLine_append_feed,
        endLine_of_shut (classes.append _)]
    | true =>
      have entryPoint : Shut (closing settings) := by
        have call : Shut "    sample_main()" := ⟨')', rfl, by decide⟩
        rw [closing, if_pos sample]
        exact (call.intercalate rfl "\n").append _
      rw [if_pos rfl, endLine_of_shut (entryPoint.append _)]

end ModuleCode

end Formulary
