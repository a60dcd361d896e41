import Mathlib
import Formulary.Proofs.Containment
import Formulary.Proofs.Joins
import Formulary.Proofs.LineBreaks

set_option autoImplicit false

namespace Formulary

namespace Host

/-- A triple-quoted literal behind its opening quotes: its body, which goes up to the first three
quotes in a row that are not escaped, and what stands behind those. A backslash escapes the next
character. -/
def closeTriple : List Char → Option (List Char × List Char)
  | [] => none
  | '\\' :: [] => none
  | '\\' :: c :: cs => (closeTriple cs).map fun (body, rest) => ('\\' :: c :: body, rest)
  | '"' :: '"' :: '"' :: cs => some ([], cs)
  | c :: cs => (closeTriple cs).map fun (body, rest) => (c :: body, rest)

/-- What the body of a literal stands for. -/
def unescape : List Char → List Char
  | [] => []
  | '\\' :: c :: cs => c :: unescape cs
  | c :: cs => c :: unescape cs

/-- The docstring that a text starts with, behind the indentation: its body, and what stands behind
its closing quotes. -/
def docstring? (text : List Char) : Option (List Char × List Char) :=
  match text.dropWhile (· = ' ') with
  | '"' :: '"' :: '"' :: cs => closeTriple cs
  | _ => none

/-- The text is passed as a part of the body if `rest` stands behind it. -/
def Passes (text rest : List Char) : Prop :=
  closeTriple (text ++ rest) =
    (closeTriple rest).map fun (body, behind) => (text ++ body, behind)

section Passes

variable {text more rest : List Char} {c : Char}

theorem passes_nil : Passes [] rest := by
  rw [Passes, List.nil_append]
  cases closeTriple rest <;> rfl

theorem Passes.append (first : Passes text (more ++ rest)) (second : Passes more rest) :
    Passes (text ++ more) rest := by
  rw [Passes, List.append_assoc, first, second, Option.map_map]
  congr 1
  funext found
  simp

theorem Passes.eq_some {body behind : List Char} (passes : Passes text rest)
    (closes : closeTriple rest = some (body, behind)) :
    closeTriple (text ++ rest) = some (text ++ body, behind) := by
  rw [passes, closes]
  rfl

theorem passes_escape (c : Char) : Passes ['\\', c] rest := by
  rw [Passes, List.cons_append, List.singleton_append, closeTriple]
  rfl

theorem passes_plain (slash : c ≠ '\\') (opened : ¬ ['"', '"', '"'] <+: c :: rest) :
    Passes [c] rest := by
  rw [Passes, List.singleton_append, closeTriple]
  · rfl
  · rintro rfl rfl
    exact slash rfl
  · rintro d ds rfl rfl
    exact slash rfl
  · rintro ds rfl rfl
    exact opened (by simp)

end Passes

end Host

/-- No run of quotes goes on from the first text into the second. -/
def Apart (text rest : List Char) : Prop := text.getLast? = some '"' → rest.head? ≠ some '"'

section Escaped

variable {c : Char} {cs rest : List Char}

theorem Apart.tail (apart : Apart (c :: cs) rest) : Apart cs rest := by
  intro ends
  cases cs with
  | nil => cases ends
  | cons d cs => exact apart (by rwa [List.getLast?_cons_cons])

/-- If escaped text starts with a quote, then so does the text, and that quote is not escaped. -/
theorem quote_of_escapeQuoted {tail : List Char} (nonempty : cs ≠ [])
    (starts : escapeQuoted cs ++ rest = '"' :: tail) :
    ∃ ds, cs = '"' :: ds ∧ escapeQuoted ds ++ rest = tail := by
  fun_cases escapeQuoted cs with
  | case1 => exact absurd rfl nonempty
  | case2 ds => simp [escapeQuoted] at starts
  | case3 ds triple => simp [escapeQuoted] at starts
  | case4 d ds triple slash =>
    rw [escapeQuoted, if_neg slash] at starts
    · obtain ⟨rfl, same⟩ := List.cons.inj starts
      exact ⟨ds, rfl, same⟩
    · exact triple

/-- Quotes that are not escaped are at most two in a row, also where the text ends. -/
theorem Apart.unclosed (apart : Apart (c :: cs) rest)
    (triple : ∀ more, c = '"' → cs = '"' :: '"' :: more → False) :
    ¬ ['"', '"', '"'] <+: c :: (escapeQuoted cs ++ rest) := by
  rintro ⟨tail, spelled⟩
  obtain ⟨rfl, second⟩ := List.cons.inj spelled.symm
  have inside : cs ≠ [] := by
    rintro rfl
    exact apart rfl (by simp_all [escapeQuoted])
  obtain ⟨ds, rfl, third⟩ := quote_of_escapeQuoted inside second
  have further : ds ≠ [] := by
    rintro rfl
    exact apart rfl (by simp_all [escapeQuoted])
  obtain ⟨more, rfl, -⟩ := quote_of_escapeQuoted further third
  exact triple more rfl rfl

/-- Escaped text is passed. -/
theorem passes_escapeQuoted (apart : Apart cs rest) : Host.Passes (escapeQuoted cs) rest := by
  fun_induction escapeQuoted cs with
  | case1 => exact Host.passes_nil
  | case2 cs ih =>
    have quote (more : List Char) : Host.Passes ['\\', '"'] more := Host.passes_escape '"'
    have later := ih apart.tail.tail.tail
    exact ((quote _).append ((quote _).append ((quote _).append later)))
  | case3 cs _ ih => exact (Host.passes_escape '\\').append (ih apart.tail)
  | case4 c cs triple slash ih =>
    exact (Host.passes_plain slash (apart.unclosed triple)).append (ih apart.tail)

theorem unescape_escapeQuoted (cs : List Char) : Host.unescape (escapeQuoted cs) = cs := by
  fun_induction escapeQuoted cs with
  | case1 => rfl
  | case2 cs ih => simp [Host.unescape, ih]
  | case3 cs _ ih => simp [Host.unescape, ih]
  | case4 c cs _ slash ih =>
    rw [Host.unescape, ih]
    exact fun _ _ same => absurd same slash

/-- Texts can be escaped one by one if no run of quotes goes on from one into the next. -/
theorem escapeQuoted_append (apart : Apart cs rest) :
    escapeQuoted (cs ++ rest) = escapeQuoted cs ++ escapeQuoted rest := by
  fun_induction escapeQuoted cs with
  | case1 => rfl
  | case2 cs ih => simp [escapeQuoted, ih apart.tail.tail.tail]
  | case3 cs _ ih => simp [escapeQuoted, ih apart.tail]
  | case4 c cs triple slash ih =>
    rw [List.cons_append, escapeQuoted, if_neg slash, ih apart.tail, List.cons_append]
    -- A run of three quotes that starts here would go on into the second text.
    rintro more rfl spelled
    rcases cs with _ | ⟨d, _ | ⟨e, cs⟩⟩
    · exact apart rfl (by simp_all)
    · simp only [List.cons_append, List.nil_append, List.cons.injEq] at spelled
      exact apart (by simp [spelled.1]) (by simp [spelled.2])
    · simp only [List.cons_append, List.cons.injEq] at spelled
      obtain ⟨rfl, rfl, -⟩ := spelled
      exact triple cs rfl rfl

theorem escapeQuoted_unmarked (slash : '\\' ∉ cs) (quote : '"' ∉ cs) : escapeQuoted cs = cs := by
  induction cs with
  | nil => rfl
  | cons c cs ih =>
    rw [List.mem_cons, not_or] at slash quote
    rw [escapeQuoted, if_neg (Ne.symm slash.1), ih slash.2 quote.2]
    exact fun _ same => absurd same.symm quote.1

/-- A text without backslashes and quotes is left as it is, whatever stands on either side. -/
theorem escapeQuoted_around {fixed : List Char} (nonempty : fixed ≠ []) (slash : '\\' ∉ fixed)
    (quote : '"' ∉ fixed) (front back : List Char) :
    escapeQuoted (front ++ (fixed ++ back)) =
      escapeQuoted front ++ (fixed ++ escapeQuoted back) := by
  have before : Apart front (fixed ++ back) := by
    intro _ starts
    rw [List.head?_append_of_ne_nil _ nonempty] at starts
    exact quote (List.mem_of_head? starts)
  have behind : Apart fixed back := fun ends => absurd (List.mem_of_getLast? ends) quote
  rw [escapeQuoted_append before, escapeQuoted_append behind, escapeQuoted_unmarked slash quote]

end Escaped

/-- The number of quotes that a text ends with. -/
def quotesAtEnd (cs : List Char) : Nat := (cs.reverse.takeWhile (· = '"')).length

theorem exists_front (cs : List Char) :
    ∃ front, cs = front ++ List.replicate (quotesAtEnd cs) '"' ∧ front.getLast? ≠ some '"' := by
  refine ⟨(cs.reverse.dropWhile (· = '"')).reverse, ?_, ?_⟩
  · have quotes : cs.reverse.takeWhile (· = '"') = List.replicate (quotesAtEnd cs) '"' := by
      rw [quotesAtEnd, List.eq_replicate_iff]
      exact ⟨rfl, fun c member => by simpa using List.mem_takeWhile_imp member⟩
    rw [← List.reverse_inj, List.reverse_append, List.reverse_reverse, List.reverse_replicate,
      ← quotes, List.takeWhile_append_dropWhile]
  · rw [List.getLast?_reverse]
    intro starts
    have stops := List.head?_dropWhile_not (fun c => decide (c = '"')) cs.reverse
    rw [starts] at stops
    simp at stops

theorem quotesAtEnd_append {front back : List Char} (other : front.getLast? ≠ some '"') :
    quotesAtEnd (front ++ back) = quotesAtEnd back := by
  have stops : front.reverse.takeWhile (· = '"') = [] := by
    rw [← List.head?_reverse] at other
    cases spelled : front.reverse with
    | nil => rfl
    | cons c cs =>
      rw [spelled, List.head?_cons, Ne, Option.some.injEq] at other
      simp [other]
  rw [quotesAtEnd, quotesAtEnd, List.reverse_append, List.takeWhile_append, stops, List.append_nil]
  split
  · rename_i whole
    exact whole.symm
  · rfl

theorem quotesAtEnd_eq_zero {cs : List Char} (other : cs.getLast? ≠ some '"') :
    quotesAtEnd cs = 0 := by
  rw [← List.append_nil cs]
  exact quotesAtEnd_append other

/-- Of quotes before the closing ones, all that make three are escaped, and the others close the
literal together with some of the closing ones. -/
theorem closeTriple_quotes (rest : List Char) : ∀ count : Nat,
    Host.closeTriple (escapeQuoted (List.replicate count '"') ++ ('"' :: '"' :: '"' :: rest)) =
      some (escapeQuoted (List.replicate (count - count % 3) '"'),
        List.replicate (count % 3) '"' ++ rest)
  | 0 => rfl
  | 1 => rfl
  | 2 => rfl
  | count + 3 => by
    have fewer : count + 3 - (count + 3) % 3 = count - count % 3 + 3 := by omega
    rw [fewer, Nat.add_mod_right]
    simp [List.replicate_succ, escapeQuoted, Host.closeTriple, closeTriple_quotes rest count]

/-- A text between triple quotes is read back but for the quotes that are left at its end, and those
are left over behind the literal. -/
theorem closeTriple_escapeQuoted (cs : List Char) :
    ∃ kept, cs = kept ++ List.replicate (quotesAtEnd cs % 3) '"' ∧
      ∀ rest, Host.closeTriple (escapeQuoted cs ++ ('"' :: '"' :: '"' :: rest)) =
        some (escapeQuoted kept, List.replicate (quotesAtEnd cs % 3) '"' ++ rest) := by
  obtain ⟨front, split, ends⟩ := exists_front cs
  generalize quotesAtEnd cs = count at split ⊢
  subst split
  have apart (more : List Char) : Apart front more := fun quote => absurd quote ends
  refine ⟨front ++ List.replicate (count - count % 3) '"', ?_, fun rest => ?_⟩
  · rw [List.append_assoc, List.replicate_append_replicate, Nat.sub_add_cancel (Nat.mod_le _ _)]
  · rw [escapeQuoted_append (apart _), escapeQuoted_append (apart _), List.append_assoc]
    exact (passes_escapeQuoted (apart _)).eq_some (closeTriple_quotes rest count)

namespace Rule

/-- What the docstring says. -/
def documentation : Rule → String
  | join condition => "Derived from " ++ oneLine condition
  | formula text description =>
    description ++ "\n        Original formula: " ++ oneLine text ++ "\n        "

/-- The docstring as it stands in the class. -/
def docstringText (rule : Rule) : String := "\n".intercalate (rule.docstring.map Line.render)

theorem toList_docstringText (rule : Rule) :
    rule.docstringText.toList = List.replicate 8 ' ' ++
      ('"' :: '"' :: '"' :: (escapeQuoted rule.documentation.toList ++ ['"', '"', '"'])) := by
  have indent (text : String) :
      (Line.render ⟨2, text⟩).toList = List.replicate 8 ' ' ++ text.toList := by
    simp [Line.render]
  cases rule with
  | join condition =>
    have fixed := @escapeQuoted_around "Derived from ".toList (by decide) (by decide) (by decide)
      [] (oneLine condition).toList
    rw [List.nil_append] at fixed
    simp only [docstringText, docstring, List.map_cons, List.map_nil,
      String.intercalate_singleton, indent, documentation, String.toList_append, fixed, quoted,
      String.toList_ofList]
    simp [tripleQuote, escapeQuoted]
  | formula text description =>
    have middle := @escapeQuoted_around "\n        Original formula: ".toList (by decide)
      (by decide) (by decide) description.toList
    have last := @escapeQuoted_around "\n        ".toList (by decide) (by decide) (by decide)
      (oneLine text).toList []
    rw [List.append_nil] at last
    simp only [docstringText, docstring, List.map_cons, List.map_nil,
      String.intercalate_singleton, String.intercalate_cons_cons, indent, documentation,
      String.toList_append, List.append_assoc, middle, last, quoted, String.toList_ofList]
    simp [tripleQuote, escapeQuoted]

/-- The host reads what the docstring says but for the quotes that are left at its end. -/
theorem docstring?_docstringText (rule : Rule) :
    let left := List.replicate (quotesAtEnd rule.documentation.toList % 3) '"'
    ∃ body, Host.unescape body ++ left = rule.documentation.toList ∧
      ∀ rest, Host.docstring? (rule.docstringText.toList ++ rest) = some (body, left ++ rest) := by
  intro left
  obtain ⟨kept, split, closes⟩ := closeTriple_escapeQuoted rule.documentation.toList
  refine ⟨escapeQuoted kept, ?_, fun rest => ?_⟩
  · rw [unescape_escapeQuoted, ← split]
  · have start : (rule.docstringText.toList ++ rest).dropWhile (· = ' ') = '"' :: '"' :: '"' ::
        (escapeQuoted rule.documentation.toList ++ ('"' :: '"' :: '"' :: rest)) := by
      simp [toList_docstringText]
    rw [Host.docstring?, start]
    exact closes rest

theorem quotesAtEnd_join (condition : String) :
    quotesAtEnd (join condition).documentation.toList = quotesAtEnd (oneLine condition).toList := by
  rw [documentation, String.toList_append]
  exact quotesAtEnd_append (by decide)

/-- The indentation of the closing quotes stands behind the formula. -/
theorem quotesAtEnd_formula (text description : String) :
    quotesAtEnd (formula text description).documentation.toList = 0 := by
  apply quotesAtEnd_eq_zero
  rw [documentation, String.toList_append, List.getLast?_append_of_ne_nil _ (by decide)]
  decide

end Rule

/-- Of all lexemes only literals hold quotes. -/
theorem Lexeme.quote_not_mem_of_read? {cs : List Char} {lexeme : Lexeme}
    (found : read? cs = some lexeme) (other : ∀ literal, lexeme.kind ≠ .string literal) :
    '"' ∉ lexeme.text := by
  cases cs with
  | nil => cases found
  | cons c cs =>
    by_cases digit : c.isDigit = true
    · obtain ⟨numeral, read, -, isNumeral, -⟩ := @read?_digit c cs digit
      rw [read] at found
      cases found
      have plain := (@plain_of_isNumeral (String.ofList lexeme.text) (by simpa using isNumeral)).2
      rw [String.toList_ofList, List.all_eq_true] at plain
      exact fun member => absurd (plain '"' member) (by decide)
    · by_cases start : isWordStart c = true
      · rw [read?_word start] at found
        cases found
        rw [List.mem_cons, not_or]
        refine ⟨?_, fun member => ?_⟩
        · rintro rfl
          cases start
        · exact absurd (List.all_eq_true.1 List.all_takeWhile '"' member) (by decide)
      · by_cases isQuote : c = '"' ∨ c = '\''
        · rw [read?_quote isQuote, string?, if_pos isQuote] at found
          obtain ⟨⟨body, rest⟩, inside, rfl⟩ := Option.map_eq_some_iff.1 found
          exact absurd rfl (other _)
        · have notPart : isWordPart c = false := by simp [isWordPart_eq, digit, start]
          rw [read?_mark notPart isQuote] at found
          unfold symbol? at found
          split at found <;> cases found <;> simp

theorem Lexes.quote_not_mem {rest text : List Char} {start : Nat} {tokens : List Token}
    (run : Lexes rest start text tokens)
    (others : ∀ token ∈ tokens, ∀ literal, token.kind ≠ .string literal) : '"' ∉ text := by
  induction run with
  | nil => exact List.not_mem_nil
  | separator separates behind ih =>
    rw [List.mem_cons, not_or]
    refine ⟨?_, ih others⟩
    rintro rfl
    cases separates
  | lexeme found behind ih =>
    obtain ⟨here, later⟩ := List.forall_mem_cons.1 others
    rw [List.mem_append, not_or]
    exact ⟨Lexeme.quote_not_mem_of_read? found here, ih later⟩

/-- A condition that is a join holds no quotes. -/
theorem quote_not_mem_of_join {condition : String} {collection : Collection}
    (joined : joinCollection condition = .ok collection) : '"' ∉ condition.toList := by
  obtain ⟨tokens, lexed, -⟩ := bind_eq_ok.1 joined
  have code : (joinCollection condition).map Collection.render = .ok collection.render := by
    rw [joined]
    rfl
  obtain ⟨_, _, ⟨first, second, mark, markToo, kinds⟩, -⟩ :=
    (joinCollection_eq_ok_iff lexed).1 code
  refine (tokensFrom_eq_ok.1 lexed).quote_not_mem ?_
  intro token member literal kind
  have listed := List.mem_map_of_mem (f := Token.kind) member
  rw [kinds, kind] at listed
  simp only [List.mem_cons, List.not_mem_nil, or_false] at mark markToo
  rcases mark with rfl | rfl <;> rcases markToo with rfl | rfl <;> simp at listed

/-- The characters on the one line are those of the text, and spaces. -/
theorem mem_of_mem_oneLine {text : String} {c : Char} (member : c ∈ (oneLine text).toList) :
    c = ' ' ∨ c ∈ text.toList := by
  rcases Text.of_mem_intercalate member with between | ⟨trimmed, listed, inside⟩
  · exact .inl (by simpa using between)
  · obtain ⟨_, there, rfl⟩ := List.mem_map.1 listed
    obtain ⟨line, here, rfl⟩ := List.mem_map.1 there
    rw [Text.trim, String.toList_ofList, String.toList_ofList] at inside
    exact .inr ((Text.infix_of_mem_splitLines here).subset (Text.mem_of_mem_trim inside))

/-- The docstring of a formula ends at the quotes on its last line, whatever stands behind them, and
it says the description, the formula on one line, and what stands around them. -/
theorem docstring_formula (name text description : String) :
    let property : Property := ⟨name, .formula text description⟩
    property.block = Property.header name ++ property.rule.docstring ++
      (Accessor.ofProperty property).body ∧
    property.rule.docstring.getLast? = some ⟨2, tripleQuote⟩ ∧
    ∃ body,
      (∀ rest, Host.docstring? (property.rule.docstringText.toList ++ rest) = some (body, rest)) ∧
      String.ofList (Host.unescape body) =
        description ++ "\n        Original formula: " ++ oneLine text ++ "\n        " := by
  intro property
  obtain ⟨body, value, reads⟩ := property.rule.docstring?_docstringText
  rw [Rule.quotesAtEnd_formula] at value reads
  refine ⟨rfl, rfl, body, reads, ?_⟩
  rw [← List.append_nil (Host.unescape body)]
  exact (congrArg String.ofList value).trans String.ofList_toList

/-- The docstring of a join is one line. Of the quotes at the end of the condition, those that are
left behind the last three take the place of closing ones, and as many quotes are left over behind
the docstring. So it ends with its line exactly if they make threes, which they do in a condition
that is a join: it holds no quotes. -/
theorem docstring_join (name condition : String) :
    let property : Property := ⟨name, .join condition⟩
    let quotes := quotesAtEnd (oneLine condition).toList
    ∃ line body,
      property.block = Property.header name ++ line :: (Accessor.ofProperty property).body ∧
      Host.docstring? line.render.toList = some (body, List.replicate (quotes % 3) '"') ∧
      String.ofList (Host.unescape body ++ List.replicate (quotes % 3) '"') =
        "Derived from " ++ oneLine condition ∧
      ((∃ whole, Host.docstring? line.render.toList = some (whole, [])) ↔ 3 ∣ quotes) ∧
      ∀ collection, joinCollection condition = .ok collection → quotes = 0 := by
  intro property quotes
  obtain ⟨body, value, reads⟩ := property.rule.docstring?_docstringText
  obtain ⟨line, single⟩ : ∃ line, property.rule.docstring = [line] := ⟨_, rfl⟩
  rw [Rule.quotesAtEnd_join] at value reads
  have read := reads []
  rw [Rule.docstringText, single, List.map_singleton, String.intercalate_singleton,
    List.append_nil, List.append_nil] at read
  refine ⟨line, body, ?_, read, ?_, ?_, ?_⟩
  · rw [Property.block, Accessor.lines, Accessor.ofProperty, single]
    rfl
  · exact (congrArg String.ofList value).trans String.ofList_toList
  · rw [read, Nat.dvd_iff_mod_eq_zero]
    simp [quotes]
  · intro collection joined
    apply quotesAtEnd_eq_zero
    intro ends
    rcases mem_of_mem_oneLine (List.mem_of_getLast? ends) with space | inside
    · cases space
    · exact quote_not_mem_of_join joined inside

/-- A comparison with a text is no join, and the quote that it ends with is one too many. -/
theorem docstring_join_literal :
    ∃ line body,
      Property.block ⟨"x", .join "this.a = \"b\""⟩ = Property.header "x" ++ line :: body ∧
      ¬ ∃ whole, Host.docstring? line.render.toList = some (whole, []) := by
  obtain ⟨line, _, block, -, -, closes, -⟩ := docstring_join "x" "this.a = \"b\""
  have quotes : ¬ 3 ∣ quotesAtEnd (oneLine "this.a = \"b\"").toList := by decide
  exact ⟨line, _, block, fun whole => quotes (closes.1 whole)⟩

end Formulary
