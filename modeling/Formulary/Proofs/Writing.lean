import Mathlib
import Formulary.Files
import Formulary.Proofs.Splits

set_option autoImplicit false

namespace Formulary

namespace Place

theorem isAbove_of_prefix {place above : Place} (starts : above <+: place)
    (is : place.isAbove = true) : isAbove above = true := by
  rw [isAbove, Bool.or_eq_true, beq_iff_eq] at is
  rcases is with rfl | dots
  · rcases above with _ | ⟨name, _ | ⟨next, more⟩⟩
    · rfl
    · obtain ⟨rest, split⟩ := starts
      obtain ⟨rfl, -⟩ := List.cons.inj split
      rfl
    · have := starts.length_le
      simp [root] at this
  · rw [isAbove, Bool.or_eq_true, List.all_eq_true]
    exact .inr fun name member => List.all_eq_true.1 dots name (starts.subset member)

end Place

namespace Files

variable {files : Files} {place here directory : Place} {front : List String} {name : String}

theorem contents?_put (files : Files) (place other : Place) (bytes : ByteArray) :
    (files.put place bytes).contents? other =
      if other = place then some bytes else files.contents? other := by
  rw [put, contents?, List.lookup_cons]
  split
  · rename_i same
    rw [if_pos (beq_iff_eq.1 same)]
  · rename_i differs
    have apart : other ≠ place := by simpa using differs
    rw [if_neg apart, contents?]
    induction files.entries with
    | nil => rfl
    | cons entry entries ih =>
      obtain ⟨found, kept⟩ := entry
      by_cases here : found = place
      · simp [here, ih, List.lookup_cons, differs]
      · simp [here, List.lookup_cons, ih]

theorem isDirectory_iff :
    files.isDirectory place = true ↔ place.isAbove = true ∨
      ∃ entry ∈ files.entries, place <+: entry.1 ∧ place.length < entry.1.length := by
  simp only [isDirectory, Bool.or_eq_true, List.any_eq_true, Bool.and_eq_true,
    List.isPrefixOf_iff_prefix, decide_eq_true_eq]

/-- Whatever leads to a directory is one. -/
theorem isDirectory_of_prefix {above : Place} (starts : above <+: place)
    (is : files.isDirectory place = true) : files.isDirectory above = true := by
  rw [isDirectory_iff] at is ⊢
  rcases is with top | ⟨entry, member, below, longer⟩
  · exact .inl (Place.isAbove_of_prefix starts top)
  · exact .inr ⟨entry, member, starts.trans below, Nat.lt_of_le_of_lt starts.length_le longer⟩

theorem isDirectory_parent (is : files.isDirectory place = true) :
    files.isDirectory place.parent = true := by
  unfold Place.parent
  split
  · exact isDirectory_iff.2 (.inl rfl)
  · split
    · rename_i notRoot top
      have dots : place.all (· == "..") = true := by simpa [Place.isAbove, notRoot] using top
      refine isDirectory_iff.2 (.inl ?_)
      rw [Place.isAbove, List.all_append, dots, Bool.or_eq_true]
      exact .inr rfl
    · exact isDirectory_of_prefix place.dropLast_prefix is

/-- A part of a path that is not the last one leads to a directory. -/
theorem follow_cons_eq_ok {part : String} {rest : List String} (more : rest ≠ []) :
    files.follow here (part :: rest) = .ok place ↔
      (part = "" ∨ part = ".") ∧ files.follow here rest = .ok place ∨
      part = ".." ∧ files.follow here.parent rest = .ok place ∨
      isDots part = false ∧ part.utf8ByteSize ≤ maxName ∧
        files.isDirectory (here ++ [part]) = true ∧
        files.follow (here ++ [part]) rest = .ok place := by
  rw [follow]
  by_cases stay : part = "" ∨ part = "."
  · rcases stay with rfl | rfl <;> simp [isDots]
  · by_cases up : part = ".."
    · subst up
      simp [isDots]
    · have named : isDots part = false := by simpa [isDots, up] using stay
      rw [if_neg stay, if_neg up, if_neg more]
      by_cases long : maxName < part.utf8ByteSize
      · simp [stay, up, long]
      · rw [if_neg long]
        by_cases below : files.isDirectory (here ++ [part]) = true
        · simp [stay, up, named, Nat.le_of_not_lt long, below]
        · rw [if_neg below]
          split <;> simp [stay, up, below]

theorem isDirectory_follow (start : files.isDirectory here = true)
    (followed : files.follow here (front ++ ["."]) = .ok directory) :
    files.isDirectory directory = true := by
  induction front generalizing here with
  | nil =>
    cases followed
    exact start
  | cons part front ih =>
    rcases (follow_cons_eq_ok (by simp)).1 followed with
      ⟨-, later⟩ | ⟨-, later⟩ | ⟨-, -, below, later⟩
    · exact ih start later
    · exact ih (isDirectory_parent start) later
    · exact ih below later

theorem follow_append {last : String} :
    files.follow here (front ++ [last]) = .ok place ↔
      ∃ directory, files.follow here (front ++ ["."]) = .ok directory ∧
        files.follow directory [last] = .ok place := by
  induction front generalizing here with
  | nil => simp [follow]
  | cons part front ih =>
    rw [List.cons_append, List.cons_append, follow_cons_eq_ok (by simp)]
    simp only [follow_cons_eq_ok (show front ++ ["."] ≠ [] by simp), ih]
    grind

theorem splitPath_ne_nil (path : List Char) : splitPath path ≠ [] := by
  unfold splitPath
  split
  · simp
  · split
    · simp
    · split <;> simp

/-- A path starts from a directory and has a last part. -/
theorem of_parts_eq_ok (files : Files) {path : String} {found : Place × List String}
    (split : parts path = .ok found) : files.isDirectory found.1 = true ∧ found.2 ≠ [] := by
  unfold parts at split
  split_ifs at split
  all_goals cases split
  · exact ⟨isDirectory_iff.2 (.inl rfl), by simpa using splitPath_ne_nil path.toList⟩
  · exact ⟨isDirectory_iff.2 (.inl rfl), by simpa using splitPath_ne_nil path.toList⟩

/-- A file is written to a name in a directory. -/
theorem of_target_eq_ok {path : String} (leads : files.target path = .ok place) :
    ∃ start front name directory, parts path = .ok (start, front ++ [name]) ∧
      files.follow start (front ++ ["."]) = .ok directory ∧ isDots name = false ∧
      name.utf8ByteSize ≤ maxName ∧ files.isDirectory directory = true ∧
      files.isDirectory (directory ++ [name]) = false ∧ place = directory ++ [name] := by
  obtain ⟨⟨start, found⟩, split, leads⟩ := bind_eq_ok.1 leads
  obtain ⟨directory, followed, leads⟩ := bind_eq_ok.1 leads
  obtain ⟨begins, nonempty⟩ := of_parts_eq_ok files split
  dsimp only at leads
  split_ifs at leads with taken long
  cases leads
  simp only [not_or, ne_eq, not_not, Bool.not_eq_true] at taken
  obtain ⟨named, noSlashes, fresh⟩ := taken
  obtain ⟨front, name, rfl⟩ := (List.eq_nil_or_concat' found).resolve_left nonempty
  simp only [noSlashes, List.dropLast_concat, List.getLast?_concat, Option.getD_some]
    at followed named long fresh ⊢
  exact ⟨start, front, name, directory, split, followed, named, Nat.le_of_not_lt long,
    isDirectory_follow begins followed, fresh, rfl⟩

section

variable {bytes : ByteArray}

/-- A write into a directory leaves the directories as they are. -/
theorem isDirectory_put (inside : files.isDirectory directory = true) (other : Place) :
    (files.put (directory ++ [name]) bytes).isDirectory other = files.isDirectory other := by
  rw [Bool.eq_iff_iff, isDirectory_iff]
  constructor
  · rintro (top | ⟨entry, member, below, longer⟩)
    · exact isDirectory_iff.2 (.inl top)
    · rcases List.mem_cons.1 member with rfl | kept
      · have above : other <+: directory := by
          rcases List.prefix_concat_iff.1 below with rfl | above
          · exact absurd longer (Nat.lt_irrefl _)
          · exact above
        exact isDirectory_of_prefix above inside
      · exact isDirectory_iff.2 (.inr ⟨entry, (List.mem_filter.1 kept).1, below, longer⟩)
  · intro is
    rcases isDirectory_iff.1 is with top | ⟨entry, member, below, longer⟩
    · exact .inl top
    · refine .inr ?_
      by_cases written : entry.1 = directory ++ [name]
      · exact ⟨_, List.mem_cons_self, written ▸ below, written ▸ longer⟩
      · exact ⟨entry, List.mem_cons_of_mem _ (List.mem_filter.2 ⟨member, by simpa using written⟩),
          below, longer⟩

theorem follow_put (inside : files.isDirectory directory = true) {found : Place} :
    (files.put (directory ++ [name]) bytes).follow here (front ++ ["."]) = .ok found ↔
      files.follow here (front ++ ["."]) = .ok found := by
  induction front generalizing here with
  | nil => rfl
  | cons part front ih =>
    rw [List.cons_append, follow_cons_eq_ok (by simp), follow_cons_eq_ok (by simp)]
    simp only [ih, isDirectory_put inside]

end

/-- What was written is read back from the same path. -/
theorem readText_put {path text : String} (leads : files.target path = .ok place) :
    (files.put place text.toUTF8).readText path = .ok text := by
  obtain ⟨start, front, name, directory, split, followed, named, short, inside, fresh, rfl⟩ :=
    of_target_eq_ok leads
  have found : (files.put (directory ++ [name]) text.toUTF8).follow start (front ++ [name]) =
      .ok (directory ++ [name]) := by
    refine follow_append.2 ⟨directory, (follow_put inside).2 followed, ?_⟩
    simp only [isDots, Bool.or_eq_false_iff, beq_eq_false_iff_ne] at named
    simp [follow, named, Nat.not_lt.2 short, isDirectory_put inside, fresh, contents?_put]
  have decoded : String.fromUTF8? text.toUTF8 = some text := dif_pos text.isValidUTF8
  simp only [readText, split, bind, Except.bind, found, contents?_put, if_pos, decoded]

end Files

end Formulary
