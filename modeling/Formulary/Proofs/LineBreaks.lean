import Mathlib
import Formulary.Output.Class
import Formulary.Rulebook.Load
import Formulary.Proofs.Carried
import Formulary.Proofs.Messages
import Formulary.Proofs.Report

set_option autoImplicit false

namespace Formulary

/-- Whether a text holds the end of a line. -/
def breaks (text : String) : Bool := text.toList.any isLineEnd

theorem breaks_iff {text : String} : breaks text = true ↔ ∃ c ∈ text.toList, isLineEnd c = true :=
  List.any_eq_true

@[simp] theorem breaks_append (first second : String) :
    breaks (first ++ second) = (breaks first || breaks second) := by
  simp [breaks]

namespace Text

theorem trimLeft_keeps {c : Char} (seen : isBlank c = false) (front back : List Char) :
    ∃ kept, trimLeft (front ++ c :: back) = kept ++ c :: back := by
  induction front with
  | nil => exact ⟨[], by simp [trimLeft, seen]⟩
  | cons first front ih =>
    rw [List.cons_append, trimLeft, List.dropWhile_cons]
    split
    · exact ih
    · exact ⟨first :: front, rfl⟩

theorem trimRight_keeps {c : Char} (seen : isBlank c = false) (front back : List Char) :
    ∃ kept, trimRight (front ++ c :: back) = front ++ c :: kept := by
  obtain ⟨kept, same⟩ := trimLeft_keeps seen back.reverse front.reverse
  refine ⟨kept.reverse, ?_⟩
  rw [trimLeft] at same
  simp [trimRight, same]

/-- What is left in front starts with a character that is not blank. -/
theorem trimLeft_split (cs : List Char) :
    ∃ front, cs = front ++ trimLeft cs ∧ ∀ c ∈ (trimLeft cs).head?, isBlank c = false := by
  refine ⟨cs.takeWhile isBlank, List.takeWhile_append_dropWhile.symm, ?_⟩
  intro c member
  have stops := List.head?_dropWhile_not isBlank cs
  rw [trimLeft] at member
  rwa [member] at stops

theorem trimRight_split (cs : List Char) :
    ∃ back, cs = trimRight cs ++ back ∧ ∀ c ∈ (trimRight cs).getLast?, isBlank c = false := by
  obtain ⟨front, whole, stops⟩ := trimLeft_split cs.reverse
  refine ⟨front.reverse, ?_, ?_⟩
  · rw [← List.reverse_inj, List.reverse_append, List.reverse_reverse, trimRight,
      List.reverse_reverse]
    exact whole
  · rw [trimRight, List.getLast?_reverse]
    exact stops

theorem mem_of_mem_trim {c : Char} {cs : List Char} (member : c ∈ trimRight (trimLeft cs)) :
    c ∈ cs := by
  obtain ⟨front, whole, -⟩ := trimLeft_split cs
  obtain ⟨back, kept, -⟩ := trimRight_split (trimLeft cs)
  have inner := List.mem_append_left back member
  rw [← kept] at inner
  rw [whole]
  exact List.mem_append_right front inner

/-- A blank that trimming keeps: it stands between two characters that are not blank. -/
def Inner (c : Char) (cs : List Char) : Prop :=
  ∃ front first left right last back,
    cs = front ++ first :: (left ++ c :: (right ++ last :: back)) ∧ isBlank first = false ∧
      isBlank last = false

theorem mem_trim_iff {c : Char} {cs : List Char} (blank : isBlank c = true) :
    c ∈ trimRight (trimLeft cs) ↔ Inner c cs := by
  constructor
  · intro member
    obtain ⟨front, whole, seenFirst⟩ := trimLeft_split cs
    obtain ⟨back, kept, seenLast⟩ := trimRight_split (trimLeft cs)
    obtain ⟨before, behind, split⟩ := List.append_of_mem member
    rw [split] at kept seenLast
    rw [kept] at whole seenFirst
    cases before with
    | nil =>
      rw [seenFirst c (by simp)] at blank
      cases blank
    | cons first left =>
      cases behind using List.reverseRecOn with
      | nil =>
        rw [seenLast c List.getLast?_concat] at blank
        cases blank
      | append_singleton right last =>
        refine ⟨front, first, left, right, last, back, ?_, ?_, ?_⟩
        · rw [whole]
          simp
        · exact seenFirst first (by simp)
        · have ends : first :: left ++ c :: (right ++ [last]) =
              (first :: left ++ c :: right) ++ [last] := by simp
          rw [ends] at seenLast
          exact seenLast last List.getLast?_concat
  · rintro ⟨front, first, left, right, last, back, rfl, seenFirst, seenLast⟩
    obtain ⟨kept, same⟩ := trimLeft_keeps seenFirst front (left ++ c :: (right ++ last :: back))
    have split : kept ++ first :: (left ++ c :: (right ++ last :: back)) =
        (kept ++ first :: (left ++ c :: right)) ++ last :: back := by simp
    obtain ⟨tail, again⟩ := trimRight_keeps seenLast (kept ++ first :: (left ++ c :: right)) back
    rw [same, split, again]
    simp

/-- The first line starts where the text does. -/
theorem splitLines_head {cs line : List Char} {more : List (List Char)}
    (split : splitLines cs = line :: more) : line <+: cs := by
  induction cs generalizing line more with
  | nil => cases split
  | cons c cs ih =>
    rw [splitLines] at split
    split at split
    · cases split
      exact List.nil_prefix
    · split at split
      · rename_i feed
        obtain ⟨-, next⟩ := feed
        cases cs with
        | nil => cases next
        | cons d cs =>
          obtain rfl : d = '\n' := by simpa using next
          rw [splitLines, if_pos rfl] at split
          cases split
          exact List.nil_prefix
      · split at split
        · cases split
          exact List.cons_prefix_cons.2 ⟨rfl, List.nil_prefix⟩
        · rename_i first others found
          cases split
          exact List.cons_prefix_cons.2 ⟨rfl, ih found⟩

/-- A line is a stretch of the text. -/
theorem infix_of_mem_splitLines {cs line : List Char} (member : line ∈ splitLines cs) :
    line <:+: cs := by
  induction cs generalizing line with
  | nil => cases member
  | cons c cs ih =>
    cases split : splitLines (c :: cs) with
    | nil =>
      rw [split] at member
      cases member
    | cons first others =>
      rw [split] at member
      rcases List.mem_cons.1 member with rfl | later
      · exact (splitLines_head split).isInfix
      · apply List.infix_cons
        apply ih
        rw [splitLines] at split
        split at split
        · cases split
          exact later
        · split at split
          · rw [split]
            exact List.mem_cons_of_mem first later
          · split at split
            · cases split
              cases later
            · rename_i line more found
              cases split
              rw [found]
              exact List.mem_cons_of_mem line later

/-- A stretch without line feeds, behind which no carriage return is lost, starts the first line of
what it starts. -/
theorem splitLines_append {part : List Char} (rest : List Char) (nonempty : part ≠ [])
    (single : '\n' ∉ part) (ends : part.getLast? ≠ some '\r') :
    ∃ line more, splitLines (part ++ rest) = line :: more ∧ part <+: line := by
  induction part with
  | nil => exact absurd rfl nonempty
  | cons c part ih =>
    have feed : c ≠ '\n' := fun same => single (by simp [same])
    have kept : ¬ (c = '\r' ∧ (part ++ rest).head? = some '\n') := by
      rintro ⟨rfl, next⟩
      cases part with
      | nil => exact ends rfl
      | cons d part =>
        obtain rfl : d = '\n' := by simpa using next
        exact single (by simp)
    rw [List.cons_append, splitLines, if_neg feed, if_neg kept]
    by_cases last : part = []
    · subst last
      split
      · exact ⟨[c], [], rfl, List.prefix_rfl⟩
      · rename_i line more found
        exact ⟨c :: line, more, rfl, List.cons_prefix_cons.2 ⟨rfl, List.nil_prefix⟩⟩
    · have later : part.getLast? ≠ some '\r' := by
        rwa [List.getLast?_cons_of_ne_nil last] at ends
      obtain ⟨line, more, found, start⟩ := ih last (fun inside => single (by simp [inside])) later
      rw [found]
      exact ⟨c :: line, more, rfl, List.cons_prefix_cons.2 ⟨rfl, start⟩⟩

/-- A character in front takes no line away, and adds at most to the first. -/
theorem suffix_of_splitLines_cons {c : Char} {cs line : List Char} (member : line ∈ splitLines cs) :
    ∃ longer ∈ splitLines (c :: cs), line <:+ longer := by
  rw [splitLines]
  split
  · exact ⟨line, by simp [member], List.suffix_rfl⟩
  · split
    · exact ⟨line, member, List.suffix_rfl⟩
    · split
      · rename_i empty
        rw [empty] at member
        cases member
      · rename_i first more found
        rw [found] at member
        rcases List.mem_cons.1 member with rfl | later
        · exact ⟨c :: line, by simp, List.suffix_cons c line⟩
        · exact ⟨line, by simp [later], List.suffix_rfl⟩

theorem infix_splitLines {part cs : List Char} (inside : part <:+: cs) (nonempty : part ≠ [])
    (single : '\n' ∉ part) (ends : part.getLast? ≠ some '\r') :
    ∃ line ∈ splitLines cs, part <:+: line := by
  obtain ⟨front, back, rfl⟩ := inside
  induction front with
  | nil =>
    obtain ⟨line, more, found, start⟩ := splitLines_append back nonempty single ends
    exact ⟨line, by simp [found], start.isInfix⟩
  | cons c front ih =>
    obtain ⟨line, member, within⟩ := ih
    obtain ⟨longer, there, tail⟩ := @suffix_of_splitLines_cons c _ _ member
    exact ⟨longer, there, within.trans tail.isInfix⟩

end Text

/-- A carriage return between two characters of one line that are not blank. -/
def InnerReturn (text : String) : Prop :=
  ∃ front first left right last back,
    text.toList = front ++ first :: (left ++ '\r' :: (right ++ last :: back)) ∧
      Text.isBlank first = false ∧ Text.isBlank last = false ∧ '\n' ∉ left ∧ '\n' ∉ right

theorem ne_lineEnd_of_isBlank {c : Char} (seen : Text.isBlank c = false) : c ≠ '\n' ∧ c ≠ '\r' := by
  have flat := not_isLineEnd_of_isBlank seen
  simpa [isLineEnd] using flat

theorem innerReturn_iff {text : String} :
    InnerReturn text ↔ ∃ line ∈ Text.splitLines text.toList, Text.Inner '\r' line := by
  constructor
  · rintro ⟨front, first, left, right, last, back, spelled, seenFirst, seenLast, before, behind⟩
    have shape : first :: (left ++ '\r' :: (right ++ [last])) =
        (first :: (left ++ '\r' :: right)) ++ [last] := by simp
    have inside : first :: (left ++ '\r' :: (right ++ [last])) <:+: text.toList :=
      ⟨front, back, by simp [spelled]⟩
    have single : '\n' ∉ first :: (left ++ '\r' :: (right ++ [last])) := by
      have start := (ne_lineEnd_of_isBlank seenFirst).1.symm
      have stop := (ne_lineEnd_of_isBlank seenLast).1.symm
      simp [before, behind, start, stop]
    have ends : (first :: (left ++ '\r' :: (right ++ [last]))).getLast? ≠ some '\r' := by
      rw [shape, List.getLast?_concat, Ne, Option.some.injEq]
      exact (ne_lineEnd_of_isBlank seenLast).2
    obtain ⟨line, member, outer, rest, rfl⟩ := Text.infix_splitLines inside (by simp) single ends
    exact ⟨_, member, outer, first, left, right, last, rest, by simp, seenFirst, seenLast⟩
  · rintro ⟨line, member, front, first, left, right, last, back, rfl, seenFirst, seenLast⟩
    have single := Text.splitLines_not_mem member
    obtain ⟨outer, rest, spelled⟩ := Text.infix_of_mem_splitLines member
    refine ⟨outer ++ front, first, left, right, last, back ++ rest, ?_, seenFirst, seenLast, ?_, ?_⟩
    · rw [← spelled]
      simp
    · exact fun feed => single (by simp [feed])
    · exact fun feed => single (by simp [feed])

/-- A comment is broken by a carriage return inside a line, and by no line feed. -/
theorem breaks_oneLine_iff {text : String} : breaks (oneLine text) = true ↔ InnerReturn text := by
  have blank : Text.isBlank '\r' = true := by decide
  rw [breaks_iff, innerReturn_iff]
  constructor
  · rintro ⟨c, member, ends⟩
    rcases Text.of_mem_intercalate member with between | ⟨trimmed, listed, inside⟩
    · obtain rfl : c = ' ' := by simpa using between
      cases ends
    · obtain ⟨_, there, rfl⟩ := List.mem_map.1 listed
      obtain ⟨line, here, rfl⟩ := List.mem_map.1 there
      rw [Text.trim, String.toList_ofList, String.toList_ofList] at inside
      have kept : c ∈ line := Text.mem_of_mem_trim inside
      have feed : c ≠ '\n' := by
        rintro rfl
        exact Text.splitLines_not_mem here kept
      obtain rfl : c = '\r' := by simpa [isLineEnd, feed] using ends
      exact ⟨line, here, (Text.mem_trim_iff blank).1 inside⟩
  · rintro ⟨line, member, inner⟩
    refine ⟨'\r', ?_, rfl⟩
    apply Text.mem_intercalate (List.mem_map_of_mem (List.mem_map_of_mem member))
    rw [Text.trim, String.toList_ofList, String.toList_ofList]
    exact (Text.mem_trim_iff blank).2 inner

theorem not_isLineEnd_of_isWordPart {c : Char} (part : Lexeme.isWordPart c = true) :
    isLineEnd c = false := not_isLineEnd_of_isPlain (isPlain_of_isWordPart part)

namespace Sweep

/-- What was passed of a literal that is still open. -/
def opened : Sweep → List Char
  | literal _ taken => taken
  | escape _ taken => taken
  | _ => []

/-- Some literal holds the end of a line, or what is open does. -/
def Broken (place : Sweep) (found : List String) : Prop :=
  (∃ literal ∈ found, breaks literal = true) ∨ place.opened.any isLineEnd = true

theorem extend_opened {place next : Sweep} {c : Char} (more : place.extend c = some next) :
    next.opened = [] := by
  unfold extend at more
  split at more
  · cases more
    rfl
  · split at more <;> cases more
    rfl
  · cases more
    split <;> rfl

theorem leave_opened {next : Sweep} {c : Char} (left : leave c = some next) :
    isLineEnd c = false ∧ next.opened.any isLineEnd = false := by
  unfold leave at left
  split at left
  · rename_i isQuote
    cases left
    have other : isLineEnd c = false := by rcases isQuote with rfl | rfl <;> rfl
    simp [opened, other]
  · split at left
    · cases left
    · rename_i other
      cases left
      exact ⟨Bool.eq_false_of_not_eq_true other, rfl⟩

/-- Outside literals the sweep refuses the end of a line. -/
theorem step_outside {place next : Sweep} {c : Char} {here : List String}
    (outside : place = gap ∨ place = digits ∨ ∃ spelled, place = word spelled)
    (steps : place.step c = some (next, here)) :
    here = [] ∧ isLineEnd c = false ∧ next.opened.any isLineEnd = false := by
  have split : (if Lexeme.isWordPart c then (place.extend c).map (·, ([] : List String))
      else if place.closes then (leave c).map (·, []) else none) = some (next, here) := by
    rcases outside with rfl | rfl | ⟨spelled, rfl⟩ <;> exact steps
  split at split
  · rename_i part
    obtain ⟨after, more, same⟩ := Option.map_eq_some_iff.1 split
    cases same
    exact ⟨rfl, not_isLineEnd_of_isWordPart part, by simp [extend_opened more]⟩
  · split at split
    · obtain ⟨after, left, same⟩ := Option.map_eq_some_iff.1 split
      cases same
      exact ⟨rfl, leave_opened left⟩
    · cases split

theorem step_broken {place next : Sweep} {c : Char} {here : List String}
    (steps : place.step c = some (next, here)) :
    next.Broken here ↔ place.opened.any isLineEnd = true ∨ isLineEnd c = true := by
  have outside (between : place = gap ∨ place = digits ∨ ∃ spelled, place = word spelled) :
      next.Broken here ↔ place.opened.any isLineEnd = true ∨ isLineEnd c = true := by
    obtain ⟨rfl, other, shut⟩ := step_outside between steps
    have closed : place.opened = [] := by rcases between with rfl | rfl | ⟨spelled, rfl⟩ <;> rfl
    rw [Broken, shut, other, closed]
    simp
  cases place with
  | literal quote taken =>
    simp only [step] at steps
    split at steps
    · cases steps
      simp [Broken, breaks, opened]
    · split at steps <;> cases steps <;> simp [Broken, opened]
  | escape quote taken =>
    cases steps
    simp [Broken, opened]
  | gap => exact outside (.inl rfl)
  | digits => exact outside (.inr (.inl rfl))
  | word spelled => exact outside (.inr (.inr ⟨spelled, rfl⟩))

/-- The ends of lines in a text that was swept are all in literals. -/
theorem run_broken {place final : Sweep} {cs : List Char} {found : List String}
    (swept : place.run cs = some (final, found)) :
    final.Broken found ↔ place.opened.any isLineEnd = true ∨ cs.any isLineEnd = true := by
  induction cs generalizing place found with
  | nil =>
    cases swept
    simp [Broken]
  | cons c cs ih =>
    obtain ⟨next, here, others, steps, later, rfl⟩ := run_cons_eq_some.1 swept
    have first := step_broken steps
    have rest := ih later
    simp only [Broken, List.mem_append, or_and_right, exists_or, List.any_cons, Bool.or_eq_true]
      at first rest ⊢
    rw [or_assoc, rest, ← or_assoc, first, or_assoc]

end Sweep

/-- Code is broken where a literal in it is. -/
theorem Carries.breaks_iff {code : String} {found : Multiset String}
    (carries : Carries code found) :
    breaks code = true ↔ ∃ literal ∈ found, breaks literal = true := by
  obtain ⟨final, list, swept, closed, rfl⟩ := carries .gap rfl
  have broken := Sweep.run_broken swept
  have shut : final.opened = [] := by
    cases final with
    | literal quote taken => cases closed
    | escape quote taken => cases closed
    | _ => rfl
  rw [Sweep.Broken, shut] at broken
  simpa [breaks, Sweep.opened] using broken.symm

theorem breaks_of_isIdentifier {name : String} (valid : isIdentifier name = true) :
    breaks name = false := by
  rw [isIdentifier, Bool.and_eq_true] at valid
  rw [← Bool.not_eq_true, breaks_iff]
  rintro ⟨c, member, ends⟩
  cases spelled : name.toList with
  | nil =>
    rw [spelled] at member
    cases member
  | cons first rest =>
    rw [spelled] at member valid
    simp only [isNameText, Bool.and_eq_true, List.all_eq_true] at valid
    have part : Lexeme.isWordPart c = true := by
      rcases List.mem_cons.1 member with rfl | later
      · exact Lexeme.isWordPart_of_isWordStart valid.1.1
      · exact valid.1.2 c later
    rw [not_isLineEnd_of_isWordPart part] at ends
    cases ends

namespace Rulebook

theorem isIdentifier_of_checkMembers {entity : String} {seen names : List String}
    (checked : checkMembers entity seen names = .ok ()) :
    ∀ name ∈ names, isIdentifier name = true := by
  fun_induction checkMembers entity seen names with
  | case1 => simp
  | case2 => cases checked
  | case3 => cases checked
  | case4 seen name rest valid new ih =>
    exact List.forall_mem_cons.2 ⟨by simpa using valid, ih checked⟩

/-- The names of an entity that was checked. -/
theorem isIdentifier_of_checkEntity {entity : Entity} (checked : checkEntity entity = .ok ()) :
    ∀ name ∈ entity.name :: entity.memberNames, isIdentifier name = true := by
  unfold checkEntity at checked
  split at checked
  · cases checked
  · rename_i valid
    exact List.forall_mem_cons.2 ⟨by simpa using valid, isIdentifier_of_checkMembers checked⟩

theorem checkEntity_of_checkEntities {seen : List String} {entities : List Entity}
    (checked : checkEntities seen entities = .ok ()) :
    ∀ entity ∈ entities, checkEntity entity = .ok () := by
  induction entities generalizing seen with
  | nil => simp
  | cons entity rest ih =>
    rw [checkEntities] at checked
    cases first : checkEntity entity with
    | error fault =>
      rw [first] at checked
      cases checked
    | ok done =>
      rw [first] at checked
      refine List.forall_mem_cons.2 ⟨first, ?_⟩
      by_cases repeats : seen.contains entity.name = true
      · rw [if_pos repeats] at checked
        cases checked
      · rw [if_neg repeats] at checked
        exact ih checked

/-- In a rulebook that was loaded, every name stands on one line. -/
theorem breaks_name_of_ofText {text : String} {rulebook : Rulebook}
    (loaded : ofText text = .ok rulebook) {entity : Entity} (member : entity ∈ rulebook.entities) :
    ∀ name ∈ entity.name :: entity.memberNames, breaks name = false := by
  intro name named
  apply breaks_of_isIdentifier
  unfold ofText at loaded
  split at loaded
  · cases loaded
  · split at loaded
    · cases loaded
    · rename_i entities _
      split at loaded
      · rw [ofEntities] at loaded
        cases checked : checkEntities [] entities with
        | error fault =>
          rw [checked] at loaded
          cases loaded
        | ok done =>
          rw [checked] at loaded
          cases loaded
          have checkedHere := checkEntity_of_checkEntities checked entity member
          exact isIdentifier_of_checkEntity checkedHere name named
      · cases loaded

end Rulebook

/-- Lines of a class that stand together, outside docstrings or in one. -/
inductive Part where
  | code (lines : List Line)
  | docstring (lines : List Line)

namespace Part

def lines : Part → List Line
  | code lines => lines
  | docstring lines => lines

def codeLines : Part → List Line
  | code lines => lines
  | docstring _ => []

end Part

def Accessor.parts (accessor : Accessor) : List Part :=
  [.code [.blank, ⟨1, "@property"⟩, ⟨1, "def " ++ accessor.property.name ++ "(self):"⟩],
    .docstring accessor.property.rule.docstring,
    .code accessor.body]

namespace Entity

/-- The class of an entity, with the lines in docstrings told apart. -/
def parts (entity : Entity) : List Part :=
  [.code [⟨0, "class " ++ entity.name ++ ":"⟩],
    .docstring [⟨1, tripleQuote ++ "Plain data container for " ++ entity.name ++ " entities." ++
      tripleQuote⟩],
    .code (⟨1, "def __init__(self, **kwargs):"⟩ :: entity.constructorBody)] ++
    entity.properties.flatMap fun property => (Accessor.ofProperty property).parts

theorem lines_parts (entity : Entity) :
    (ClassCode.ofEntity entity).lines = entity.parts.flatMap Part.lines := by
  simp [ClassCode.ofEntity, classHead, parts, Part.lines, List.flatMap_assoc, List.flatMap_map,
    Accessor.parts, Accessor.lines]

end Entity

namespace Line

/-- Whether the line takes more than one line of the text. -/
def isBroken (line : Line) : Bool := breaks line.render

theorem isBroken_eq (line : Line) : line.isBroken = breaks line.text := by
  have indent (count : Nat) : (List.replicate count ' ').any isLineEnd = false := by
    rw [List.any_replicate]
    split <;> rfl
  rw [isBroken, render, breaks_append, breaks, String.toList_ofList, indent, Bool.false_or]

end Line

/-- The comment on the type of a stored field is broken. -/
def Field.Leaks (field : Field) : Prop :=
  ∃ typeName, field.kind = .stored typeName ∧ InnerReturn typeName

namespace Rule

/-- A literal of an accepted rule holds the end of a line, or the message on a refused one is
broken as a comment. -/
def Leaks (rule : Rule) : Prop :=
  match rule.compile.result with
  | .ok _ => ∃ tokens, tokenize rule.source = .ok tokens ∧
      ∃ literal ∈ literals tokens, breaks literal = true
  | .error fault => InnerReturn fault.message

theorem carries_of_compile {rule : Rule} {fragment : Fragment}
    (success : rule.compile.result = .ok fragment) :
    ∃ tokens, tokenize rule.source = .ok tokens ∧ Carries fragment.code (bag tokens) := by
  cases rule with
  | formula text description => exact Formula.carries_of_compile success
  | join condition =>
    have found : ∃ collection, joinCollection condition = .ok collection ∧
        Fragment.plain collection.render = fragment := by
      rw [compile, Traced.result_ofExcept] at success
      cases joined : joinCollection condition with
      | error fault =>
        rw [joined] at success
        cases success
      | ok collection =>
        rw [joined] at success
        cases success
        exact ⟨collection, rfl, rfl⟩
    obtain ⟨collection, joined, rfl⟩ := found
    obtain ⟨tokens, lexed, joined⟩ := bind_eq_ok.1 joined
    refine ⟨tokens, lexed, ?_⟩
    cases dotted : referenceNames? tokens with
    | none =>
      rw [dotted] at joined
      cases joined
    | some names =>
      have words := named_of_referenceNames? (tokenize_spelled lexed) dotted
      have resolved : Scope.entity.collection names (Text.trim condition) = .ok collection := by
        rw [dotted] at joined
        dsimp only at joined
        split at joined
        · exact joined
        · cases joined
        · cases joined
      have receiver : Named Scope.entity.receiverText := Scope.named_entity
      rw [bag_of_referenceNames? dotted]
      exact Scope.carries_collection receiver words resolved

theorem endsWithin_of_compile {rule : Rule} {fault : Fault}
    (failed : rule.compile.result = .error fault) :
    EndsWithin rule.source.toList fault.message := by
  cases rule with
  | formula text description =>
    rcases Formula.arises_of_compile failed with unlexed | ⟨tokens, lexed, arises⟩
    · exact endsWithin_of_tokensFrom unlexed
    · exact arises.endsWithin (cutFrom_of_tokenize lexed)
  | join condition =>
    have trimmed : EndsWithin condition.toList (Text.trim condition) := by
      apply endsWithin_of_subset
      rw [Text.trim, String.toList_ofList]
      exact fun c => Text.mem_of_mem_trim
    have refused : Ends (fun _ => True) (fun fault => EndsWithin condition.toList fault.message)
        (joinCollection condition) := by
      refine ends_of (fun _ _ => trivial) ?_
      intro fault failed
      rcases arises_of_joinCollection failed with unlexed | rfl | rfl
      · exact endsWithin_of_tokensFrom unlexed
      · exact trimmed.between (by decide) (by decide)
      · exact trimmed.between (by decide) (by decide)
    have written : Ends (fun _ => True) _ (Rule.join condition).compile.result :=
      refused.map fun _ _ => trivial
    exact written.error failed

/-- A rule that is written on one line does not leak. -/
theorem breaks_source_of_leaks {rule : Rule} (leaks : rule.Leaks) : breaks rule.source = true := by
  rw [Leaks] at leaks
  rw [breaks_iff]
  cases outcome : rule.compile.result with
  | ok fragment =>
    rw [outcome] at leaks
    obtain ⟨tokens, lexed, literal, member, broken⟩ := leaks
    obtain ⟨token, inside, kind⟩ := List.mem_filterMap.1 member
    obtain ⟨c, here, ends⟩ := breaks_iff.1 broken
    exact ⟨c, (cutFrom_of_tokenize lexed).literals token inside literal kind here, ends⟩
  | error fault =>
    rw [outcome] at leaks
    obtain ⟨front, first, left, right, last, back, spelled, -⟩ := leaks
    have inside : '\r' ∈ fault.message.toList := by simp [spelled]
    exact ⟨'\r', endsWithin_of_compile outcome '\r' inside rfl, rfl⟩

end Rule

/-- The first line of the body is the code or the comment, and it is broken if the rule leaks. -/
theorem Accessor.isBroken_head {property : Property} {line : Line}
    (first : (Accessor.ofProperty property).body.head? = some line) :
    line.isBroken = true ↔ property.rule.Leaks := by
  rw [Line.isBroken_eq, Rule.Leaks]
  rw [Accessor.body, Accessor.ofProperty] at first
  cases outcome : property.rule.compile.result with
  | ok fragment =>
    simp only [outcome, List.head?_cons, Option.some.injEq] at first
    subst first
    obtain ⟨tokens, lexed, carries⟩ := Rule.carries_of_compile outcome
    have word : breaks "return " = false := by decide
    rw [breaks_append, word, Bool.false_or, carries.breaks_iff]
    simp [lexed, bag]
  | error fault =>
    simp only [outcome, List.head?_cons, Option.some.injEq] at first
    subst first
    have word : breaks "# Formula error: " = false := by decide
    rw [breaks_append, word, Bool.false_or]
    exact breaks_oneLine_iff

theorem Accessor.mem_body {accessor : Accessor} {line : Line} (member : line ∈ accessor.body) :
    accessor.body.head? = some line ∨ line.isBroken = false := by
  unfold body at member ⊢
  split at member
  · rename_i fragment _
    exact .inl (by simp_all)
  · rcases List.mem_cons.1 member with rfl | last
    · exact .inl (by simp_all)
    · rw [List.mem_singleton.1 last]
      exact .inr (by decide)

theorem Field.isBroken_assignment {field : Field} {line : Line} (named : breaks field.name = false)
    (written : field.assignment? = some line) : line.isBroken = true ↔ field.Leaks := by
  rw [Line.isBroken_eq, Field.Leaks]
  unfold assignment? at written
  split at written
  · cases written
  · rename_i typeName kind
    have words : breaks "self." = false ∧ breaks " = kwargs.get('" = false ∧ breaks "')" = false ∧
        breaks "  # " = false := by decide
    have code :
        breaks ("self." ++ field.name ++ " = kwargs.get('" ++ field.name ++ "')") = false := by
      simp [words, named]
    dsimp only at written
    split at written
    · rename_i usual
      cases written
      have flat : ¬ InnerReturn "scalar" := by
        rw [← breaks_oneLine_iff]
        decide
      simp [kind, code, usual, flat]
    · cases written
      rw [breaks_append, breaks_append, code, words.2.2.2, Bool.false_or, Bool.false_or,
        breaks_oneLine_iff]
      simp [kind]

theorem Lookup.isBroken_assignment {lookup : Lookup} {line : Line}
    (named : breaks lookup.name = false) (written : lookup.assignment? = some line) :
    line.isBroken = false := by
  rw [Line.isBroken_eq]
  unfold assignment? at written
  split at written
  · cases written
    have words : breaks "self." = false ∧ breaks " = CollectionWrapper(self, '" = false ∧
        breaks "')" = false := by decide
    simp [words, named]
  · cases written

theorem Entity.mem_constructorBody {entity : Entity} {line : Line}
    (member : line ∈ entity.constructorBody) :
    line = ⟨2, "pass"⟩ ∨ line = .blank ∨ (∃ field ∈ entity.fields, field.assignment? = some line) ∨
      ∃ lookup ∈ entity.lookups, lookup.assignment? = some line := by
  rw [← List.mem_filterMap, ← List.mem_filterMap]
  unfold constructorBody at member
  split at member
  · exact .inl (List.mem_singleton.1 member)
  · exact .inr (.inr (.inl member))
  · exact .inr (.inr (.inr member))
  · rcases List.mem_append.1 member with field | later
    · exact .inr (.inr (.inl field))
    · rcases List.mem_cons.1 later with blank | lookup
      · exact .inr (.inl blank)
      · exact .inr (.inr (.inr lookup))

theorem Entity.name_mem_memberNames {entity : Entity} {property : Property}
    (member : property ∈ entity.properties) : property.name ∈ entity.memberNames := by
  simp only [properties, List.mem_append, List.mem_filterMap, List.mem_map] at member
  simp only [memberNames, List.mem_append, List.mem_map]
  rcases member with (⟨lookup, here, known⟩ | ⟨field, here, known⟩) | ⟨aggregate, here, rfl⟩
  · refine .inl (.inr ⟨lookup, here, ?_⟩)
    unfold Lookup.property? at known
    split at known <;> cases known
    rfl
  · refine .inl (.inl ⟨field, here, ?_⟩)
    unfold Field.property? at known
    split at known <;> cases known
    rfl
  · exact .inr ⟨aggregate, here, rfl⟩

/-- The lines that the texts of the user may break: the assignment of a stored field, and the first
line behind the docstring of an accessor. -/
def Entity.Breaks (entity : Entity) (line : Line) : Prop :=
  (∃ field ∈ entity.fields, field.assignment? = some line ∧ field.Leaks) ∨
    ∃ property ∈ entity.properties,
      (Accessor.ofProperty property).body.head? = some line ∧ property.rule.Leaks

/-- A line outside docstrings is written for a stored field or a rule, or it is not broken. -/
theorem Entity.mem_codeLines {entity : Entity}
    (named : ∀ name ∈ entity.name :: entity.memberNames, breaks name = false) {line : Line}
    (member : line ∈ entity.parts.flatMap Part.codeLines) :
    (∃ field ∈ entity.fields, field.assignment? = some line) ∨
      (∃ property ∈ entity.properties, (Accessor.ofProperty property).body.head? = some line) ∨
      line.isBroken = false := by
  have own : breaks entity.name = false := named _ (by simp)
  simp only [parts, List.flatMap_append, List.flatMap_cons, List.flatMap_nil, Part.codeLines,
    List.mem_append, List.mem_cons, List.not_mem_nil, or_false, List.nil_append] at member
  rcases member with (rfl | rfl | inside) | accessor
  · have words : breaks "class " = false ∧ breaks ":" = false := by decide
    exact .inr (.inr (by simp [Line.isBroken_eq, words, own]))
  · exact .inr (.inr (by decide))
  · rcases mem_constructorBody inside with rfl | rfl | field | ⟨lookup, here, written⟩
    · exact .inr (.inr (by decide))
    · exact .inr (.inr (by decide))
    · exact .inl field
    · have fine : breaks lookup.name = false := by
        apply named
        simp only [memberNames, List.mem_cons, List.mem_append, List.mem_map]
        exact .inr (.inl (.inr ⟨lookup, here, rfl⟩))
      exact .inr (.inr (lookup.isBroken_assignment fine written))
  · obtain ⟨part, listed, inside⟩ := List.mem_flatMap.1 accessor
    obtain ⟨property, here, there⟩ := List.mem_flatMap.1 listed
    simp only [Accessor.parts, List.mem_cons, List.not_mem_nil, or_false] at there
    rcases there with rfl | rfl | rfl
    · simp only [Part.codeLines, List.mem_cons, List.not_mem_nil, or_false] at inside
      rcases inside with rfl | rfl | rfl
      · exact .inr (.inr (by decide))
      · exact .inr (.inr (by decide))
      · have fine : breaks property.name = false :=
          named _ (List.mem_cons_of_mem _ (name_mem_memberNames here))
        have words : breaks "def " = false ∧ breaks "(self):" = false := by decide
        exact .inr (.inr (by simp [Line.isBroken_eq, Accessor.ofProperty, words, fine]))
    · cases inside
    · rcases Accessor.mem_body inside with first | whole
      · exact .inr (.inl ⟨property, here, first⟩)
      · exact .inr (.inr whole)

/-- In a class of a loaded rulebook, a line outside docstrings is broken exactly if it is the
assignment of a stored field whose type has a carriage return inside a line, the code of a rule with
the end of a line in a literal, or the comment on a refused rule whose message has such a carriage
return. A rule that is written on one line breaks none. -/
theorem isBroken_iff_leaks {text : String} {rulebook : Rulebook} {entity : Entity}
    (loaded : Rulebook.ofText text = .ok rulebook) (member : entity ∈ rulebook.entities) :
    (ClassCode.ofEntity entity).lines = entity.parts.flatMap Part.lines ∧
      (∀ line ∈ entity.parts.flatMap Part.codeLines,
        (line.isBroken = true ↔ entity.Breaks line)) ∧
      ∀ property ∈ entity.properties, property.rule.Leaks → breaks property.rule.source = true := by
  have named := Rulebook.breaks_name_of_ofText loaded member
  have fieldBroken {field : Field} {line : Line} (here : field ∈ entity.fields)
      (written : field.assignment? = some line) : line.isBroken = true ↔ field.Leaks := by
    apply Field.isBroken_assignment _ written
    apply named
    simp only [Entity.memberNames, List.mem_cons, List.mem_append, List.mem_map]
    exact .inr (.inl (.inl ⟨field, here, rfl⟩))
  refine ⟨entity.lines_parts, ?_, fun _ _ => Rule.breaks_source_of_leaks⟩
  intro line listed
  constructor
  · intro broken
    rcases Entity.mem_codeLines named listed with
      ⟨field, here, written⟩ | ⟨property, here, first⟩ | whole
    · exact .inl ⟨field, here, written, (fieldBroken here written).1 broken⟩
    · exact .inr ⟨property, here, first, (Accessor.isBroken_head first).1 broken⟩
    · rw [whole] at broken
      cases broken
  · rintro (⟨field, here, written, leaks⟩ | ⟨property, here, first, leaks⟩)
    · exact (fieldBroken here written).2 leaks
    · exact (Accessor.isBroken_head first).2 leaks

/-- A type, a literal and a message that break their lines, beside an accessor that keeps its own
line. -/
theorem isBroken_iff_leaks_three :
    ∃ rulebook entity,
      Rulebook.ofText
          ("[\x7b\"name\":\"A\",\"fields\":[\x7b\"name\":\"x\",\"type\":\"a\\rb\"\x7d]," ++
          "\"aggregations\":[\x7b\"name\":\"y\",\"formula\":\"'a\\nb'\"\x7d," ++
          "\x7b\"name\":\"z\",\"formula\":\"1 'a\\rb'\"\x7d," ++
          "\x7b\"name\":\"w\",\"formula\":\"x\\r+\\n1\"\x7d]\x7d]") = .ok rulebook ∧
        entity ∈ rulebook.entities ∧
        (entity.parts.flatMap Part.codeLines).filter Line.isBroken =
          [⟨2, "self.x = kwargs.get('x')  # a\rb"⟩, ⟨2, "return 'a\nb'"⟩,
            ⟨2, "# Formula error: syntax error at offset 2: unexpected string 'a\rb'"⟩] ∧
        (ClassCode.ofEntity entity).lines = entity.parts.flatMap Part.lines ∧
        (∀ line ∈ entity.parts.flatMap Part.codeLines,
          (line.isBroken = true ↔ entity.Breaks line)) ∧
        ∀ property ∈ entity.properties,
          property.rule.Leaks → breaks property.rule.source = true := by
  have loaded :
      Rulebook.ofText
        ("[\x7b\"name\":\"A\",\"fields\":[\x7b\"name\":\"x\",\"type\":\"a\\rb\"\x7d]," ++
        "\"aggregations\":[\x7b\"name\":\"y\",\"formula\":\"'a\\nb'\"\x7d," ++
        "\x7b\"name\":\"z\",\"formula\":\"1 'a\\rb'\"\x7d," ++
        "\x7b\"name\":\"w\",\"formula\":\"x\\r+\\n1\"\x7d]\x7d]") =
        .ok ⟨[⟨"A", [⟨"x", .stored "a\rb"⟩], [],
          [⟨"y", "'a\nb'", ""⟩, ⟨"z", "1 'a\rb'", ""⟩, ⟨"w", "x\r+\n1", ""⟩]⟩]⟩ :=
    eq_ok_of_toOption (by decide +kernel)
  have member := List.mem_singleton_self (⟨"A", [⟨"x", .stored "a\rb"⟩], [],
    [⟨"y", "'a\nb'", ""⟩, ⟨"z", "1 'a\rb'", ""⟩, ⟨"w", "x\r+\n1", ""⟩]⟩ : Entity)
  exact ⟨_, _, loaded, member, by decide +kernel, isBroken_iff_leaks loaded member⟩

end Formulary
