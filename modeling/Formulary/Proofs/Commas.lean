import Mathlib
import Formulary.Proofs.Blame
import Formulary.Proofs.Lexing

set_option autoImplicit false

namespace Formulary

/-- The places of the commas in a list that is these parts with commas between them. -/
def commaPlaces : List (List Token) → List Nat
  | part :: next :: parts =>
    part.length :: (commaPlaces (next :: parts)).map (part.length + 1 + ·)
  | _ => []

/-- The commas between these parts of a list. -/
def commasBetween (parts : List (List Token)) (tokens : List Token) : List Token :=
  (commaPlaces parts).filterMap (tokens[·]?)

theorem commasBetween_cons (part next rest : List Token) (parts : List (List Token))
    (comma : Token) :
    commasBetween (part :: next :: parts) (part ++ comma :: rest) =
      comma :: commasBetween (next :: parts) rest := by
  have here : (part ++ comma :: rest)[part.length]? = some comma := by simp
  have later (place : Nat) : (part ++ comma :: rest)[part.length + 1 + place]? = rest[place]? := by
    rw [Nat.add_assoc, List.getElem?_append_right (by omega),
      show part.length + (1 + place) - part.length = place + 1 by omega, List.getElem?_cons_succ]
  rw [commasBetween, commaPlaces, List.filterMap_cons, here, List.filterMap_map]
  simp only [Function.comp_def, later]
  rfl

/-- The scan that only looks finds the commas at which the other one cuts, and no more. -/
theorem IsArguments.topLevel_eq {parts : List (List Token)} {tokens : List Token}
    (arguments : IsArguments parts tokens) : topLevel Token.isComma tokens = commaPlaces parts := by
  obtain ⟨joined, each⟩ := arguments
  have inside {part : List Token} (argument : IsArgument part) :
      topLevel Token.isComma part = [] :=
    (without_iff argument.paired fun _ => Token.isInner_of_isComma).1 argument.single
  induction joined with
  | none => rfl
  | one => exact inside (each _ List.mem_cons_self)
  | @more part next parts comma rest kind others ih =>
    obtain ⟨first, behind⟩ := List.forall_mem_cons.1 each
    have separates : comma.isComma = true := by simp [Token.isComma, kind]
    rw [topLevel_append first.paired, topLevel_cons (Token.isInner_of_isComma separates),
      inside first, ih behind, separates]
    simp [commaPlaces, Function.comp_def, Nat.add_assoc]

/-- The texts in front of, between and behind these commas, from a position of the source on. -/
def textsAround (source : String) (start : Nat) : List Token → List String
  | [] => [Text.slice source.toList start source.utf8ByteSize]
  | comma :: commas =>
    Text.slice source.toList start comma.start :: textsAround source comma.stop commas

/-- Blanks around a text that neither starts nor ends with one are all that is trimmed. -/
theorem Text.trim_framed {front core back : List Char} (before : ∀ c ∈ front, isBlank c = true)
    (behind : ∀ c ∈ back, isBlank c = true) (nonempty : core ≠ [])
    (first : ∀ c ∈ core.head?, isBlank c = false)
    (last : ∀ c ∈ core.getLast?, isBlank c = false) :
    trim (String.ofList (front ++ (core ++ back))) = String.ofList core := by
  have left : trimLeft (front ++ (core ++ back)) = core ++ back := by
    obtain ⟨c, rest, rfl⟩ := List.exists_cons_of_ne_nil nonempty
    have stops := first c rfl
    rw [trimLeft, List.dropWhile_append_of_pos before]
    simp [stops]
  have right : trimRight (core ++ back) = core := by
    obtain ⟨rest, c, rfl⟩ := (List.eq_nil_or_concat' core).resolve_left nonempty
    have stops := last c (by simp)
    rw [trimRight, List.reverse_append,
      List.dropWhile_append_of_pos fun c member => behind c (List.mem_reverse.1 member)]
    simp [stops]
  rw [trim, String.toList_ofList, left, right]

namespace Lexeme

theorem getLast?_closeQuote {quote : Char} {cs body rest : List Char}
    (found : closeQuote quote cs = some (body, rest)) : body.getLast? = some quote := by
  fun_induction closeQuote quote cs generalizing body rest with
  | case1 => cases found
  | case2 => cases found
  | case3 c cs ih =>
    obtain ⟨⟨inner, after⟩, inside, same⟩ := Option.map_eq_some_iff.1 found
    cases same
    simp [List.getLast?_cons, ih inside]
  | case4 cs =>
    cases found
    rfl
  | case5 c cs last escapes other ih =>
    obtain ⟨⟨inner, after⟩, inside, same⟩ := Option.map_eq_some_iff.1 found
    cases same
    simp [List.getLast?_cons, ih inside]

theorem last_of_symbol? {cs : List Char} {lexeme : Lexeme} (found : symbol? cs = some lexeme) :
    ∀ c ∈ lexeme.text.getLast?, Text.isBlank c = false := by
  unfold symbol? at found
  split at found <;> cases found <;> rintro c ⟨⟩ <;> rfl

/-- A lexeme does not end with a blank: only a literal holds one, and it ends with its quote. -/
theorem last_of_read? {cs : List Char} {lexeme : Lexeme} (found : read? cs = some lexeme) :
    ∀ c ∈ lexeme.text.getLast?, Text.isBlank c = false := by
  intro last isLast
  cases cs with
  | nil => cases found
  | cons c cs =>
    by_cases digit : c.isDigit = true
    · obtain ⟨numeral, read, -, isNumeral, -⟩ := @read?_digit c cs digit
      rw [read] at found
      cases found
      have plain := (@plain_of_isNumeral (String.ofList lexeme.text) (by simpa using isNumeral)).2
      rw [String.toList_ofList, List.all_eq_true] at plain
      exact isBlank_of_isPlain (plain last (List.mem_of_getLast? isLast))
    · by_cases start : isWordStart c = true
      · rw [read?_word start] at found
        cases found
        have part : isWordPart last = true := by
          rcases List.mem_cons.1 (List.mem_of_getLast? isLast) with rfl | member
          · simp [isWordPart_eq, start]
          · exact List.all_eq_true.1 List.all_takeWhile last member
        exact isBlank_of_isPlain (isPlain_of_isWordPart part)
      · by_cases isQuote : c = '"' ∨ c = '\''
        · rw [read?_quote isQuote, string?, if_pos isQuote] at found
          obtain ⟨⟨body, rest⟩, inside, rfl⟩ := Option.map_eq_some_iff.1 found
          have closing := getLast?_closeQuote inside
          obtain rfl : last = c := by
            rw [List.getLast?_cons, closing] at isLast
            simpa using isLast.symm
          rcases isQuote with rfl | rfl <;> rfl
        · have notPart : isWordPart c = false := by simp [isWordPart_eq, digit, start]
          rw [read?_mark notPart isQuote] at found
          exact last_of_symbol? found last isLast

end Lexeme

namespace Lexes

variable {rest text : List Char} {start : Nat} {tokens : List Token}

theorem isSeparator_of_nil (run : Lexes rest start text tokens) (empty : tokens = []) :
    ∀ c ∈ text, isSeparator c = true := by
  induction run with
  | nil => simp
  | separator separates behind ih => exact List.forall_mem_cons.2 ⟨separates, ih empty⟩
  | lexeme => cases empty

/-- The text from the first token to the last one, with separators around it. -/
theorem exists_core (run : Lexes rest start text tokens) (nonempty : tokens ≠ []) :
    ∃ front core back, text = front ++ (core ++ back) ∧ (∀ c ∈ front, isSeparator c = true) ∧
      (∀ c ∈ back, isSeparator c = true) ∧ core ≠ [] ∧
      (∀ c ∈ core.head?, Text.isBlank c = false) ∧
      (∀ c ∈ core.getLast?, Text.isBlank c = false) ∧
      (∀ first ∈ tokens.head?, first.start = start + Text.byteSize front) ∧
      endOffset tokens = start + Text.byteSize front + Text.byteSize core := by
  induction run with
  | nil => exact absurd rfl nonempty
  | @separator start c text tokens separates behind ih =>
    obtain ⟨front, core, back, rfl, before, after, full, opens, closes, starts, stops⟩ :=
      ih nonempty
    refine ⟨c :: front, core, back, rfl, List.forall_mem_cons.2 ⟨separates, before⟩, after, full,
      opens, closes, ?_, ?_⟩
    · intro first isFirst
      rw [starts first isFirst, Text.byteSize_cons, Nat.add_assoc]
    · rw [stops, Text.byteSize_cons, Nat.add_assoc start]
  | @lexeme start kind part text tokens found behind ih =>
    obtain ⟨c, tail, rfl⟩ := List.exists_cons_of_ne_nil (Lexeme.read?_splits found).1
    have opens : Text.isBlank c = false := Lexeme.isBlank_of_read? found
    by_cases empty : tokens = []
    · subst empty
      refine ⟨[], c :: tail, text, rfl, by simp, behind.isSeparator_of_nil rfl, by simp,
        by simpa using opens, Lexeme.last_of_read? found, by simp, by simp [endOffset]⟩
    · obtain ⟨front, core, back, rfl, before, after, full, -, closes, -, stops⟩ := ih empty
      refine ⟨[], c :: tail ++ (front ++ core), back, by simp, by simp, after, by simp,
        by simpa using opens, ?_, by simp, ?_⟩
      · rw [← List.append_assoc, List.getLast?_append_of_ne_nil _ full]
        exact closes
      · have last : endOffset (⟨kind, start, start + Text.byteSize (c :: tail)⟩ :: tokens) =
            endOffset tokens := by
          obtain ⟨next, others, rfl⟩ := List.exists_cons_of_ne_nil empty
          simp [endOffset]
        rw [last, stops]
        simp only [Text.byteSize_append, Text.byteSize_nil]
        omega

/-- The text of the tokens is the text that they stand in, without the blanks around it. -/
theorem sourceText_eq {before : List Char} (run : Lexes rest start text tokens)
    (nonempty : tokens ≠ []) (position : start = Text.byteSize before) (after : List Char) :
    sourceText (before ++ (text ++ after)) tokens = Text.trim (String.ofList text) := by
  obtain ⟨front, core, back, rfl, blankFront, blankBack, full, opens, closes, starts, stops⟩ :=
    run.exists_core nonempty
  obtain ⟨first, others, rfl⟩ := List.exists_cons_of_ne_nil nonempty
  rw [Text.trim_framed (fun c member => Lexeme.isBlank_of_isSeparator (blankFront c member))
    (fun c member => Lexeme.isBlank_of_isSeparator (blankBack c member)) full opens closes]
  rw [sourceText, stops, starts first rfl, position, ← Text.byteSize_append]
  have slice := Text.slice_append (before ++ front) core (back ++ after)
  simpa only [List.append_assoc] using slice

/-- A run is cut at any of its tokens. -/
theorem split {first second : List Token} {token : Token}
    (run : Lexes rest start text (first ++ token :: second)) :
    ∃ front part back, text = front ++ (part ++ back) ∧
      Lexes (part ++ (back ++ rest)) start front first ∧
      token.start = start + Text.byteSize front ∧
      token.stop = token.start + Text.byteSize part ∧ Lexes rest token.stop back second := by
  generalize whole : first ++ token :: second = tokens at run
  -- The text that comes after a run is fixed, so the run in front of the token has more of it.
  induction run generalizing first with
  | nil => cases first <;> cases whole
  | @separator start c text tokens separates behind ih =>
    obtain ⟨front, part, back, rfl, before, starts, stops, after⟩ := ih whole
    refine ⟨c :: front, part, back, rfl, .separator separates before, ?_, stops, after⟩
    rw [starts, Text.byteSize_cons, Nat.add_assoc]
  | @lexeme start kind part text tokens found behind ih =>
    cases first with
    | nil =>
      cases whole
      exact ⟨[], part, text, rfl, .nil, rfl, rfl, behind⟩
    | cons head first =>
      obtain ⟨rfl, others⟩ := List.cons.inj whole
      obtain ⟨front, mark, back, rfl, before, starts, stops, after⟩ := ih others
      refine ⟨part ++ front, mark, back, by simp, ?_, ?_, stops, after⟩
      · refine .lexeme ?_ before
        simpa using found
      · rw [starts, Text.byteSize_append, Nat.add_assoc]

end Lexes

/-- The texts of the arguments are the ones around the commas, trimmed. -/
theorem sourceTexts_eq {parts : List (List Token)} {tokens : List Token} {source : String}
    {before text : List Char} (joined : Joined parts tokens) (each : ∀ part ∈ parts, part ≠ [])
    (nonempty : parts ≠ []) (whole : source.toList = before ++ text)
    (run : Lexes [] (Text.byteSize before) text tokens) :
    parts.map (sourceText source.toList) =
      (textsAround source (Text.byteSize before) (commasBetween parts tokens)).map Text.trim := by
  induction joined generalizing before text with
  | none => exact absurd rfl nonempty
  | @one part =>
    have size : source.utf8ByteSize = Text.byteSize before + Text.byteSize text := by
      rw [Text.utf8ByteSize_eq, whole, Text.byteSize_append]
    have slice := Text.slice_append before text []
    have taken := run.sourceText_eq (each part List.mem_cons_self) rfl []
    rw [List.append_nil, ← whole] at slice
    rw [List.append_nil, ← whole] at taken
    simp [commasBetween, commaPlaces, textsAround, size, slice, taken]
  | @more part next parts comma rest kind others ih =>
    obtain ⟨first, behind⟩ := List.forall_mem_cons.1 each
    obtain ⟨front, mark, back, rfl, inFront, starts, stops, inBack⟩ := run.split
    have position : comma.stop = Text.byteSize (before ++ front ++ mark) := by
      rw [stops, starts, Text.byteSize_append, Text.byteSize_append]
    have later := @ih (before ++ front ++ mark) back behind (by simp) (by rw [whole]; simp)
      (by rw [← position]; exact inBack)
    have slice := Text.slice_append before front (mark ++ back)
    have taken := inFront.sourceText_eq first rfl (mark ++ back)
    rw [List.append_assoc, ← whole] at slice
    rw [← whole] at taken
    rw [List.map_cons, later, taken, ← slice, ← position, ← starts, commasBetween_cons, textsAround,
      List.map_cons]

/-- What can be wrong with a list of arguments. -/
def IsSplitFault (fault : Fault) : Prop :=
  ∃ position, ∃ cause ∈ [SyntaxCause.strayClosing, .unclosedBracket, .emptyArgument],
    fault = .malformed position cause

theorem splitFrom_refuses (depth last : Nat) (started : Bool) (tokens : List Token) :
    Ends (fun _ => True) IsSplitFault (splitFrom depth started last tokens) := by
  fun_induction splitFrom depth started last tokens with
  | case1 depth started last => exact ⟨last, _, by simp, rfl⟩
  | case2 => trivial
  | case3 depth started last => exact ⟨last, _, by simp, rfl⟩
  | case5 started last token => exact ⟨token.start, _, by simp, rfl⟩
  | case8 depth started last token => exact ⟨token.start, _, by simp, rfl⟩
  | _ =>
    rename_i ih
    exact ih.map fun _ _ => trivial

theorem splitArguments_refuses {tokens : List Token} {fault : Fault}
    (failed : splitArguments tokens = .error fault) : IsSplitFault fault := by
  cases tokens with
  | nil => cases failed
  | cons token rest =>
    have ends : Ends (fun _ => True) IsSplitFault (splitArguments (token :: rest)) :=
      (splitFrom_refuses 0 0 false (token :: rest)).map fun _ _ => trivial
    exact ends.error failed

theorem argumentTexts_of_tokenize {source : String} {tokens : List Token}
    (lexed : tokenize source = .ok tokens) :
    argumentTexts source = (splitArguments tokens).map (·.map (sourceText source.toList)) := by
  simp only [argumentTexts, lexed, bind, Except.bind]
  cases splitArguments tokens <;> rfl

/-- Cutting at commas is the inverse of joining with them, on lists that hold a token. It gives the
parts that the list is joined of, if these are arguments. Then the commas outside all brackets are
the ones between the parts, and the texts of the arguments are the texts around these commas,
trimmed. If the list is not joined of arguments, then it is malformed. -/
theorem splitArguments_inverse {tokens : List Token} (nonempty : tokens ≠ []) :
    (∀ parts, splitArguments tokens = .ok parts ↔ parts ≠ [] ∧ IsArguments parts tokens) ∧
    (∀ parts, splitArguments tokens = .ok parts →
      topLevel Token.isComma tokens = commaPlaces parts ∧
      ∀ source, tokenize source = .ok tokens → argumentTexts source =
        .ok ((textsAround source 0 (commasBetween parts tokens)).map Text.trim)) ∧
    ((¬∃ parts, parts ≠ [] ∧ IsArguments parts tokens) → ∃ fault, IsSplitFault fault ∧
      splitArguments tokens = .error fault ∧
      ∀ source, tokenize source = .ok tokens → argumentTexts source = .error fault) := by
  have inverse (parts : List (List Token)) :
      splitArguments tokens = .ok parts ↔ parts ≠ [] ∧ IsArguments parts tokens := by
    rw [splitArguments_eq_ok]
    refine ⟨fun arguments => ⟨?_, arguments⟩, And.right⟩
    rintro rfl
    cases arguments.joined
    exact nonempty rfl
  refine ⟨inverse, fun parts split => ?_, fun unjoined => ?_⟩
  · obtain ⟨full, arguments⟩ := (inverse parts).1 split
    refine ⟨arguments.topLevel_eq, fun source lexed => ?_⟩
    have run : Lexes [] 0 source.toList tokens := tokensFrom_eq_ok.1 lexed
    have texts := @sourceTexts_eq parts tokens source [] source.toList arguments.joined
      (fun part member => (arguments.each part member).present) full rfl run
    rw [argumentTexts_of_tokenize lexed, split]
    exact congrArg Except.ok texts
  · cases split : splitArguments tokens with
    | ok parts => exact absurd ⟨parts, (inverse parts).1 split⟩ unjoined
    | error fault =>
      refine ⟨fault, splitArguments_refuses split, rfl, fun source lexed => ?_⟩
      rw [argumentTexts_of_tokenize lexed, split]
      rfl

/-- A bracket that is closed by one of the other kind, and a comma in a literal. -/
theorem splitArguments_inverse_mixed :
    tokenize " f(a, b] ,\t'c, d' " =
        .ok [⟨.ident "f", 1, 2⟩, ⟨.openParen, 2, 3⟩, ⟨.ident "a", 3, 4⟩, ⟨.comma, 4, 5⟩,
          ⟨.ident "b", 6, 7⟩, ⟨.closeBracket, 7, 8⟩, ⟨.comma, 9, 10⟩,
          ⟨.string "'c, d'", 11, 17⟩] ∧
      topLevel Token.isComma
          [⟨.ident "f", 1, 2⟩, ⟨.openParen, 2, 3⟩, ⟨.ident "a", 3, 4⟩, ⟨.comma, 4, 5⟩,
            ⟨.ident "b", 6, 7⟩, ⟨.closeBracket, 7, 8⟩, ⟨.comma, 9, 10⟩,
            ⟨.string "'c, d'", 11, 17⟩] = [6] ∧
      argumentTexts " f(a, b] ,\t'c, d' " = .ok ["f(a, b]", "'c, d'"] := by
  have lexed : tokenize " f(a, b] ,\t'c, d' " =
      .ok [⟨.ident "f", 1, 2⟩, ⟨.openParen, 2, 3⟩, ⟨.ident "a", 3, 4⟩, ⟨.comma, 4, 5⟩,
        ⟨.ident "b", 6, 7⟩, ⟨.closeBracket, 7, 8⟩, ⟨.comma, 9, 10⟩,
        ⟨.string "'c, d'", 11, 17⟩] := by cbv
  obtain ⟨-, found, -⟩ := splitArguments_inverse (List.cons_ne_nil (⟨.ident "f", 1, 2⟩ : Token)
    [⟨.openParen, 2, 3⟩, ⟨.ident "a", 3, 4⟩, ⟨.comma, 4, 5⟩, ⟨.ident "b", 6, 7⟩,
      ⟨.closeBracket, 7, 8⟩, ⟨.comma, 9, 10⟩, ⟨.string "'c, d'", 11, 17⟩])
  obtain ⟨commas, texts⟩ := found _ rfl
  exact ⟨lexed, commas, texts _ lexed⟩

end Formulary
