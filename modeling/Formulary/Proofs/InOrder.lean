import Formulary.Proofs.Checked
import Formulary.Proofs.Splits

set_option autoImplicit false

namespace Formulary

namespace Checked

variable {crash : Fault}

theorem subtract_add (part rest : Nat) : subtract crash (rest + part) part = .ok rest := by
  simp [subtract]

theorem index_of_getElem? {α : Type} {items : List α} {place : Nat} {item : α}
    (there : items[place]? = some item) : index crash items place = .ok item := by
  rw [index, there]

theorem range_of_le {α : Type} {items : List α} {start stop : Nat} (forward : start ≤ stop)
    (inside : stop ≤ items.length) :
    range crash items start stop = .ok ((items.take stop).drop start) :=
  if_pos ⟨forward, inside⟩

theorem range_append {α : Type} (before part behind : List α) {start stop : Nat}
    (starts : start = before.length) (stops : stop = before.length + part.length) :
    range crash (before ++ part ++ behind) start stop = .ok part := by
  subst starts stops
  have inside : before.length ≤ before.length + part.length ∧
      before.length + part.length ≤ (before ++ part ++ behind).length := by
    simp only [List.length_append]
    omega
  rw [range_of_le inside.1 inside.2, ← List.length_append, List.take_left, List.drop_left]

theorem splitsAt_byteSize_append (before after : List Char) :
    splitsAt (before ++ after) (Text.byteSize before) = true := by
  induction before with
  | nil => simp [splitsAt]
  | cons c cs ih =>
    obtain ⟨size, positive⟩ : ∃ size, Text.byteSize (c :: cs) = size + 1 :=
      ⟨Text.byteSize (c :: cs) - 1, by
        have := c.utf8Size_pos
        rw [Text.byteSize_cons]
        omega⟩
    have rest : size + 1 - c.utf8Size = Text.byteSize cs := by
      rw [← positive, Text.byteSize_cons, Nat.add_sub_cancel_left]
    have fits : c.utf8Size ≤ size + 1 := by
      rw [← positive, Text.byteSize_cons]
      omega
    rw [positive, List.cons_append, splitsAt, rest, ih, decide_eq_true fits]
    rfl

/-- Tokens that stand one behind the other in a text, each between two places to cut it. -/
structure InOrder (source : List Char) (tokens : List Token) : Prop where
  cut : ∀ token ∈ tokens, token.start ≤ token.stop ∧ splitsAt source token.start = true ∧
    splitsAt source token.stop = true
  apart : tokens.Pairwise fun token later => token.stop ≤ later.start

namespace InOrder

variable {source : List Char} {tokens part : List Token}

theorem nil : InOrder source [] := ⟨by simp, .nil⟩

theorem sublist (ordered : InOrder source tokens) (within : part.Sublist tokens) :
    InOrder source part :=
  ⟨fun token member => ordered.cut token (within.subset member), ordered.apart.sublist within⟩

/-- A stretch from the first token to one that is not before it can be cut out. -/
theorem slice_eq {first : Token} {rest : List Token} {stop : Nat}
    (ordered : InOrder source (first :: rest))
    (stops : stop = first.stop ∨ ∃ last ∈ rest, stop = last.stop) :
    slice crash source first.start stop = .ok (Text.slice source first.start stop) := by
  obtain ⟨forward, starts, ends⟩ := ordered.cut first (by simp)
  have bounds : first.start ≤ stop ∧ splitsAt source first.start = true ∧
      splitsAt source stop = true := by
    rcases stops with rfl | ⟨last, member, rfl⟩
    · exact ⟨forward, starts, ends⟩
    · obtain ⟨onward, -, ends⟩ := ordered.cut last (by simp [member])
      have behind := (List.pairwise_cons.1 ordered.apart).1 last member
      exact ⟨by omega, starts, ends⟩
  rw [slice, if_pos bounds]

theorem sourceText_eq (ordered : InOrder source tokens) :
    sourceText crash source tokens = .ok (Formulary.sourceText source tokens) := by
  cases tokens with
  | nil => rfl
  | cons first rest =>
    have last := List.getLast?_eq_some_getLast (List.cons_ne_nil first rest)
    have stop : endOffset (first :: rest) =
        ((first :: rest).getLast (List.cons_ne_nil first rest)).stop := by
      rw [endOffset, last]
      rfl
    rw [sourceText, Formulary.sourceText, last, List.head?_cons, stop]
    apply ordered.slice_eq
    rcases List.mem_cons.1 (List.getLast_mem (List.cons_ne_nil first rest)) with same | member
    · exact .inl (by rw [same])
    · exact .inr ⟨_, member, rfl⟩

end InOrder

theorem offset_append (before rest : List Char) :
    offset crash (before ++ rest) rest = .ok (Text.byteSize before) := by
  rw [offset, Text.byteSize_append, subtract_add]

theorem suffix_cons (c : Char) (cs : List Char) :
    suffix crash (c :: cs) c.utf8Size = .ok cs := by
  have splits : splitsAt (c :: cs) c.utf8Size = true := by
    simpa using splitsAt_byteSize_append [c] cs
  have dropped : Text.dropBytes c.utf8Size (c :: cs) = cs := by
    simpa using Text.dropBytes_byteSize_append [c] cs
  rw [suffix, if_pos splits, dropped]

/-- The source in front of a character, with the character moved to the part that was read. -/
theorem whole_cons {source before cs : List Char} {c : Char} (whole : source = before ++ c :: cs) :
    source = (before ++ [c]) ++ cs := by
  rw [whole, List.append_assoc, List.singleton_append]

/-- The same for a lexeme. -/
theorem whole_lexeme {source before cs : List Char} {lexeme : Lexeme}
    (found : Lexeme.read? cs = some lexeme) (whole : source = before ++ cs) :
    source = (before ++ lexeme.text) ++ lexeme.rest := by
  rw [whole, List.append_assoc, (Lexeme.read?_splits found).2]

/-- A lexeme starts where the part that was read stops, and stops where it has been read too. -/
theorem offsets_lexeme {source before cs : List Char} {lexeme : Lexeme} {start : Nat}
    (found : Lexeme.read? cs = some lexeme) (whole : source = before ++ cs)
    (starts : start = Text.byteSize before) :
    offset crash source cs = .ok start ∧
      offset crash source lexeme.rest = .ok (start + Text.byteSize lexeme.text) := by
  constructor
  · rw [whole, offset_append, starts]
  · rw [whole_lexeme found whole, offset_append, Text.byteSize_append, starts]

theorem tokensFrom_eq {source before rest : List Char} {start : Nat}
    (whole : source = before ++ rest) (starts : start = Text.byteSize before) :
    tokensFrom crash source rest = Formulary.tokensFrom start rest := by
  fun_induction Formulary.tokensFrom start rest generalizing before with
  | case1 => rw [tokensFrom]
  | case2 start c cs separates ih =>
    rw [tokensFrom, if_pos separates]
    exact ih (whole_cons whole) (by simp [starts])
  | case3 start c cs other unread =>
    rw [tokensFrom, if_neg other, whole, offset_append, starts]
    simp only [bind, Except.bind]
    split
    · rfl
    · simp_all
  | case4 start c cs other lexeme found stop =>
    rename_i ih
    have behind := whole_lexeme found whole
    have stops : stop = Text.byteSize (before ++ lexeme.text) := by simp [stop, starts]
    obtain ⟨here, after⟩ := @offsets_lexeme crash _ _ _ _ _ found whole starts
    rw [tokensFrom, if_neg other, here]
    simp only [bind, Except.bind]
    split
    · simp_all
    · rename_i again
      obtain rfl := Option.some.inj (found.symm.trans again)
      rw [after]
      dsimp only
      rw [ih behind stops]
      cases Formulary.tokensFrom stop lexeme.rest <;> rfl

theorem tokenize_eq (source : String) : tokenize crash source = Formulary.tokenize source :=
  @tokensFrom_eq crash source.toList [] source.toList 0 rfl rfl

theorem lenientTokensFrom_eq {source before rest : List Char} {start : Nat}
    (whole : source = before ++ rest) (starts : start = Text.byteSize before) :
    lenientTokensFrom crash source rest = .ok (Formulary.lenientTokensFrom start rest) := by
  fun_induction Formulary.lenientTokensFrom start rest generalizing before with
  | case1 => rw [lenientTokensFrom]
  | case2 start c cs blank ih =>
    rw [lenientTokensFrom, if_pos blank]
    exact ih (whole_cons whole) (by simp [starts])
  | case3 start c cs other unread ih =>
    have next := ih (whole_cons whole) (by simp [starts])
    rw [lenientTokensFrom, if_neg other, whole, offset_append, ← whole]
    simp only [bind, Except.bind]
    split
    · split
      · simp_all [suffix_cons]
      · rename_i after dropped
        rw [suffix_cons] at dropped
        cases dropped
        exact next
    · simp_all
  | case4 start c cs other lexeme found stop =>
    rename_i ih
    have behind := whole_lexeme found whole
    have stops : stop = Text.byteSize (before ++ lexeme.text) := by simp [stop, starts]
    obtain ⟨here, after⟩ := @offsets_lexeme crash _ _ _ _ _ found whole starts
    rw [lenientTokensFrom, if_neg other, here]
    simp only [bind, Except.bind]
    split
    · simp_all
    · rename_i again
      obtain rfl := Option.some.inj (found.symm.trans again)
      rw [after]
      dsimp only
      rw [ih behind stops]
      rfl

theorem tokenizeLenient_eq (source : String) :
    tokenizeLenient crash source = .ok (Formulary.tokenizeLenient source) :=
  @lenientTokensFrom_eq crash source.toList [] source.toList 0 rfl rfl

/-- The lexer puts each token behind those it has read, where the text can be cut. -/
theorem inOrder_tokensFrom {source before rest : List Char} {start : Nat} {tokens : List Token}
    (whole : source = before ++ rest) (starts : start = Text.byteSize before)
    (lexed : Formulary.tokensFrom start rest = .ok tokens) :
    InOrder source tokens ∧ ∀ token ∈ tokens, start ≤ token.start := by
  fun_induction Formulary.tokensFrom start rest generalizing before tokens with
  | case1 =>
    cases lexed
    exact ⟨.nil, by simp⟩
  | case2 start c cs separates ih =>
    obtain ⟨ordered, behind⟩ := ih (whole_cons whole) (by simp [starts]) lexed
    exact ⟨ordered, fun token member => Nat.le_of_add_right_le (behind token member)⟩
  | case3 => cases lexed
  | case4 start c cs other lexeme found stop =>
    rename_i ih
    have rest := whole_lexeme found whole
    have stops : stop = Text.byteSize (before ++ lexeme.text) := by simp [stop, starts]
    cases more : Formulary.tokensFrom stop lexeme.rest with
    | error fault =>
      rw [more] at lexed
      cases lexed
    | ok others =>
      rw [more] at lexed
      cases lexed
      obtain ⟨ordered, behind⟩ := ih rest stops more
      have forward : start ≤ stop := Nat.le_add_right _ _
      have opens : splitsAt source start = true := by
        rw [whole, starts]
        exact splitsAt_byteSize_append before (c :: cs)
      have closes : splitsAt source stop = true := by
        rw [rest, stops]
        exact splitsAt_byteSize_append (before ++ lexeme.text) lexeme.rest
      refine ⟨⟨?_, List.pairwise_cons.2 ⟨behind, ordered.apart⟩⟩, ?_⟩
      · exact List.forall_mem_cons.2 ⟨⟨forward, opens, closes⟩, ordered.cut⟩
      · refine List.forall_mem_cons.2 ⟨Nat.le_refl _, fun token member => ?_⟩
        exact Nat.le_trans forward (behind token member)

theorem inOrder_tokenize {source : String} {tokens : List Token}
    (lexed : Formulary.tokenize source = .ok tokens) : InOrder source.toList tokens :=
  (@inOrder_tokensFrom source.toList [] source.toList 0 tokens rfl rfl lexed).1

theorem closing_consFirst (place : Nat) (token : Token)
    (found : Option (List Token × List Token)) :
    (found.map fun parts => place + 1 + parts.1.length) =
      (found.map (consFirst token)).map fun parts => place + parts.1.length := by
  cases found <;> simp [consFirst, Nat.add_right_comm, Nat.add_assoc]

/-- Whoever counts open brackets from one on never counts below zero. -/
theorem closingIndex_eq (depth place : Nat) (tokens : List Token) :
    closingIndex crash (depth + 1) place tokens =
      .ok ((upToClose depth tokens).map fun parts => place + parts.1.length) := by
  fun_induction upToClose depth tokens generalizing place with
  | case1 => rfl
  | case2 depth token rest kind ih => rw [closingIndex, kind, ih, closing_consFirst]
  | case3 token rest kind =>
    rw [closingIndex, kind]
    rfl
  | case4 token rest kind depth ih =>
    rw [closingIndex, kind]
    dsimp only
    rw [subtract_add, ← closing_consFirst, ← ih]
    rfl
  | case5 depth token rest notOpen notClose ih =>
    rw [← closing_consFirst, ← ih, closingIndex.eq_def]
    split <;> simp_all

theorem matchingParen_eq {opening : Token} (opens : opening.kind = .openParen)
    (rest : List Token) :
    matchingParen crash (opening :: rest) 0 =
      .ok ((Formulary.enclosed opening rest).map fun parts => 1 + parts.1.length) := by
  have counted : closingIndex crash 0 0 (opening :: rest) =
      .ok ((upToClose 0 rest).map fun parts => 1 + parts.1.length) := by
    rw [closingIndex, opens]
    exact closingIndex_eq 0 1 rest
  rw [matchingParen, List.drop_zero, counted, Formulary.enclosed]
  cases upToClose 0 rest <;> rfl

theorem enclosed_eq {opening : Token} (opens : opening.kind = .openParen) (rest : List Token) :
    enclosed crash (opening :: rest) = Formulary.enclosed opening rest := by
  rw [enclosed, matchingParen_eq opens, Formulary.enclosed]
  cases found : upToClose 0 rest with
  | none => rfl
  | some parts =>
    obtain ⟨inside, tail⟩ := parts
    obtain ⟨closing, rfl, -⟩ := upToClose_append found
    have within := @range_append crash _ [opening] inside (closing :: tail) 1 (1 + inside.length)
      rfl rfl
    have behind := @range_append crash _ ([opening] ++ inside ++ [closing]) tail []
      (1 + inside.length + 1) ((opening :: (inside ++ closing :: tail)).length)
      (by simp; omega) (by simp; omega)
    simp only [List.cons_append, List.append_assoc, List.nil_append, List.append_nil]
      at within behind
    simp only [Except.map, bind, Except.bind, within, behind]
    rfl

/-- The last token is there to be blamed. -/
theorem blame_last {tokens : List Token} (nonempty : tokens ≠ []) (cause : SyntaxCause)
    {α : Type} :
    (do
      let before ← subtract crash tokens.length 1
      let last ← index crash tokens before
      .error (.malformed last.stop cause) : Except Fault α) =
      .error (.malformed (endOffset tokens) cause) := by
  have positive := List.length_pos_iff.2 nonempty
  have before : subtract crash tokens.length 1 = .ok (tokens.length - 1) := if_pos positive
  have last := List.getLast?_eq_some_getLast nonempty
  have there : index crash tokens (tokens.length - 1) = .ok (tokens.getLast nonempty) :=
    index_of_getElem? (by rw [← List.getLast?_eq_getElem?, last])
  rw [before, endOffset, last]
  simp only [bind, Except.bind, there]
  rfl

theorem endOffset_concat (tokens : List Token) (last : Token) :
    endOffset (tokens ++ [last]) = last.stop := by
  simp [endOffset]

/-- Where the tokens end, what follows the last comma is the last part. -/
theorem splitFrom_end {tokens before current : List Token} {depth : Nat} (nonempty : tokens ≠ [])
    (whole : tokens = before ++ current) :
    splitFrom crash tokens depth before.length (before.length + current.length) [] =
      (Formulary.splitFrom depth (!current.isEmpty) (endOffset tokens) []).map
        fun parts => (current ++ parts.1) :: parts.2 := by
  unfold splitFrom Formulary.splitFrom
  split
  · exact blame_last nonempty .unclosedBracket
  · cases current with
    | nil =>
      rw [List.append_nil] at whole
      rw [if_pos (by rw [whole])]
      exact blame_last nonempty .emptyArgument
    | cons token current =>
      have unfinished : before.length ≠ tokens.length := by simp [whole]
      have part := @range_append crash _ before (token :: current) [] before.length
        tokens.length rfl (by rw [whole, List.length_append])
      rw [List.append_nil, ← whole] at part
      rw [if_neg unfinished, part]
      simp [bind, Except.bind, Except.map, pure, Except.pure]

/-- The part that is being read stands between those already cut off and the tokens to come. -/
theorem splitFrom_eq {tokens before current rest : List Token} {depth last : Nat}
    (nonempty : tokens ≠ []) (whole : tokens = before ++ current ++ rest)
    (stops : before ++ current ≠ [] → last = endOffset (before ++ current)) :
    splitFrom crash tokens depth before.length (before.length + current.length) rest =
      (Formulary.splitFrom depth (!current.isEmpty) last rest).map
        fun parts => (current ++ parts.1) :: parts.2 := by
  induction rest generalizing before current depth last with
  | nil =>
    rw [List.append_nil] at whole
    obtain rfl := stops (whole ▸ nonempty)
    rw [← whole]
    exact splitFrom_end nonempty whole
  | cons token rest ih =>
    have onward (deeper : Nat) :
        splitFrom crash tokens deeper before.length (before.length + current.length + 1) rest =
          ((Formulary.splitFrom deeper true token.stop rest).map (consFirst token)).map
            fun parts => (current ++ parts.1) :: parts.2 := by
      have step := @ih before (current ++ [token]) deeper token.stop (by simp [whole])
        (fun _ => by rw [← List.append_assoc, endOffset_concat])
      have started : (!(current ++ [token]).isEmpty) = true := by cases current <;> rfl
      rw [List.length_append, List.length_singleton, ← Nat.add_assoc, started] at step
      rw [step]
      cases Formulary.splitFrom deeper true token.stop rest <;> simp [Except.map, consFirst]
    unfold splitFrom Formulary.splitFrom
    split
    · exact onward (depth + 1)
    · split
      · cases depth with
        | zero => rfl
        | succ depth => exact onward depth
      · split
        · cases current with
          | nil => simp [Except.map]
          | cons head current =>
            have part := @range_append crash _ before (head :: current) (token :: rest) _ _ rfl rfl
            have others := @ih (before ++ head :: current ++ [token]) [] 0 token.stop
              (by simp [whole]) (fun _ => by rw [List.append_nil, endOffset_concat])
            simp only [List.length_append, List.length_singleton, List.length_nil,
              Nat.add_zero, List.isEmpty_nil, Bool.not_true, List.nil_append] at others
            rw [← whole] at part
            rw [if_neg (by simp), part]
            simp only [bind, Except.bind, others]
            cases Formulary.splitFrom 0 false token.stop rest <;>
              simp [Except.map, pure, Except.pure]
        · exact onward depth

theorem splitArguments_eq (tokens : List Token) :
    splitArguments crash tokens = Formulary.splitArguments tokens := by
  cases tokens with
  | nil => rfl
  | cons token rest =>
    exact @splitFrom_eq crash (token :: rest) [] [] (token :: rest) 0 0 (by simp) rfl (by simp)

theorem sublist_of_joined {parts : List (List Token)} {tokens part : List Token}
    (joined : Joined parts tokens) (member : part ∈ parts) : part.Sublist tokens := by
  induction joined with
  | none => cases member
  | one =>
    obtain rfl := List.mem_singleton.1 member
    exact List.Sublist.refl _
  | @more first next parts comma rest kind others ih =>
    rcases List.mem_cons.1 member with rfl | later
    · exact List.sublist_append_left _ _
    · exact ((ih later).cons comma).trans (List.sublist_append_right _ _)

theorem InOrder.split {source : List Char} {tokens : List Token} {parts : List (List Token)}
    (ordered : InOrder source tokens) (found : Formulary.splitArguments tokens = .ok parts) :
    ∀ part ∈ parts, InOrder source part := fun _ member =>
  ordered.sublist (sublist_of_joined (splitArguments_joined found) member)

theorem mapM_sourceText {source : List Char} {parts : List (List Token)}
    (ordered : ∀ part ∈ parts, InOrder source part) :
    parts.mapM (sourceText crash source) = .ok (parts.map (Formulary.sourceText source)) := by
  induction parts with
  | nil => rfl
  | cons part parts ih =>
    obtain ⟨first, others⟩ := List.forall_mem_cons.1 ordered
    rw [List.mapM_cons, first.sourceText_eq, ih others]
    rfl

theorem argumentTexts_eq (source : String) :
    argumentTexts crash source = Formulary.argumentTexts source := by
  rw [argumentTexts, Formulary.argumentTexts, tokenize_eq]
  cases lexed : Formulary.tokenize source with
  | error fault => rfl
  | ok tokens =>
    simp only [bind, Except.bind, splitArguments_eq]
    cases found : Formulary.splitArguments tokens with
    | error fault => rfl
    | ok parts => exact mapM_sourceText ((inOrder_tokenize lexed).split found)

theorem joinCollection_eq (condition : String) :
    joinCollection crash condition = Formulary.joinCollection condition := by
  rw [joinCollection, tokenize_eq]
  rfl

theorem startsConditional_eq (tokens : List Token) :
    startsConditional crash tokens = .ok (Formulary.startsConditional tokens) := by
  cases tokens with
  | nil => rfl
  | cons keyword rest =>
    rw [startsConditional]
    cases rest with
    | nil => simp [Formulary.startsConditional]
    | cons opening rest =>
      by_cases isIf : keyword.kind = .keyword .ifWord ∧ opening.kind = .openParen
      · obtain ⟨word, opens⟩ := isIf
        rw [if_pos ⟨word, by simp [opens]⟩, matchingParen_eq opens, Formulary.startsConditional,
          Formulary.enclosed]
        cases found : upToClose 0 rest with
        | none => simp [word, opens, Except.map, bind, Except.bind, pure, Except.pure]
        | some parts =>
          obtain ⟨inside, tail⟩ := parts
          obtain ⟨closing, rfl, -⟩ := upToClose_append found
          have next :
              (opening :: (inside ++ closing :: tail))[1 + inside.length + 1]? = tail[0]? := by
            rw [Nat.add_comm 1, List.getElem?_cons_succ, List.getElem?_append_right (by omega)]
            simp
          cases tail <;> simp_all [Except.map, bind, Except.bind, pure, Except.pure]
      · rw [if_neg (by simpa using isIf), Formulary.startsConditional]
        simp only [not_and] at isIf
        by_cases word : keyword.kind = .keyword .ifWord
        · simp [word, isIf word]
        · simp [word]

theorem hasConditional_eq (text : String) :
    hasConditional crash text = .ok (Formulary.hasConditional text) := by
  have holds (tokens : List Token) :
      holdsConditional crash tokens = .ok (Formulary.holdsConditional tokens) := by
    induction tokens with
    | nil => rfl
    | cons token rest ih =>
      rw [holdsConditional, startsConditional_eq, Formulary.holdsConditional, ih]
      cases Formulary.startsConditional (token :: rest) <;> rfl
  rw [hasConditional, tokenizeLenient_eq]
  exact holds _

open Aggregation (Clause Key Source)

/-- The marks stand at different places of the list, so the ranges between them are there. -/
theorem cutClause_eq (name : String) {tokens : List Token} {whereAt arrowAt : Option Nat}
    (wheres : ∀ place ∈ whereAt, ∃ token, tokens[place]? = some token ∧ token.isWhere = true)
    (arrows : ∀ place ∈ arrowAt, ∃ token, tokens[place]? = some token ∧
      token.isFatArrow = true) :
    cutClause crash name tokens whereAt arrowAt =
      Aggregation.cutClause name tokens whereAt arrowAt := by
  have inside {place : Nat} {token : Token} (there : tokens[place]? = some token) :
      place + 1 ≤ tokens.length := (List.getElem?_eq_some_iff.1 there).1
  cases whereAt with
  | none =>
    cases arrowAt with
    | none =>
      unfold cutClause
      simp [range_of_le, bind, Except.bind, pure, Except.pure, Aggregation.cutClause]
    | some arrowAt =>
      obtain ⟨arrow, there, -⟩ := arrows arrowAt rfl
      have bound := inside there
      have body := @range_of_le crash _ tokens _ _ bound (Nat.le_refl _)
      have head := @range_of_le crash _ tokens _ _ (Nat.zero_le _) (Nat.le_of_succ_le bound)
      unfold cutClause Aggregation.cutClause
      cases found : Aggregation.nonEmpty name .emptyProjection (tokens.drop (arrowAt + 1)) <;>
        simp [bind, Except.bind, pure, Except.pure, Functor.map, Except.map, body, head, found]
  | some whereAt =>
    obtain ⟨word, there, isWhere⟩ := wheres whereAt rfl
    have bound := inside there
    cases arrowAt with
    | none =>
      have body := @range_of_le crash _ tokens _ _ bound (Nat.le_refl _)
      have head := @range_of_le crash _ tokens _ _ (Nat.zero_le _) (Nat.le_of_succ_le bound)
      unfold cutClause Aggregation.cutClause
      cases found : Aggregation.nonEmpty name .emptyPredicate (tokens.drop (whereAt + 1)) <;>
        simp [bind, Except.bind, pure, Except.pure, Functor.map, Except.map, body, head, found]
    | some arrowAt =>
      obtain ⟨arrow, behind, isArrow⟩ := arrows arrowAt rfl
      have apart : whereAt ≠ arrowAt := by
        rintro rfl
        obtain rfl := Option.some.inj (there.symm.trans behind)
        simp_all [Token.isWhere, Token.isFatArrow]
      unfold cutClause Aggregation.cutClause
      by_cases reversed : arrowAt < whereAt
      · simp [reversed, bind, Except.bind]
      · have body := @range_of_le crash _ tokens (whereAt + 1) arrowAt (by omega)
          (Nat.le_of_succ_le (inside behind))
        have last := @range_of_le crash _ tokens _ _ (inside behind) (Nat.le_refl _)
        have head := @range_of_le crash _ tokens _ _ (Nat.zero_le _) (Nat.le_of_succ_le bound)
        cases test : Aggregation.nonEmpty name .emptyPredicate
            ((tokens.take arrowAt).drop (whereAt + 1)) <;>
          cases value : Aggregation.nonEmpty name .emptyProjection (tokens.drop (arrowAt + 1)) <;>
          simp [reversed, bind, Except.bind, pure, Except.pure, Functor.map, Except.map, body, last,
            head, test, value]

theorem splitClause_eq (name : String) (tokens : List Token) :
    splitClause crash name tokens = Aggregation.splitClause name tokens := by
  unfold splitClause Aggregation.splitClause
  cases found : topLevel Token.isComma tokens with
  | cons comma others =>
    obtain ⟨token, there, -⟩ := selected_of_mem_topLevel (found ▸ List.mem_cons_self)
    dsimp only
    rw [index_of_getElem? there, there]
    rfl
  | nil =>
    have cut := @cutClause_eq crash name tokens (topLevel Token.isWhere tokens).head?
      (topLevel Token.isFatArrow tokens).head?
      (fun _ found => selected_of_mem_topLevel (List.mem_of_mem_head? found))
      (fun _ found => selected_of_mem_topLevel (List.mem_of_mem_head? found))
    simp only [cut]

theorem splitKeyed_eq (name : String) (arguments : List (List Token)) :
    splitKeyed crash name arguments = Aggregation.splitKeyed name arguments := by
  rcases arguments with _ | ⟨first, _ | ⟨second, _ | ⟨third, rest⟩⟩⟩
  · rfl
  · rfl
  · rw [splitKeyed, Aggregation.splitKeyed, splitClause_eq]
  · rfl

/-- What a clause is cut into. -/
def ClauseInOrder (source : List Char) (clause : Clause) : Prop :=
  InOrder source clause.collection ∧ (∀ body ∈ clause.predicate, InOrder source body) ∧
    ∀ body ∈ clause.projection, InOrder source body

theorem sublist_of_marked {mark : Mark} {part : Option (List Token)} {tokens body : List Token}
    (marked : Marked mark part tokens) (member : body ∈ part) : body.Sublist tokens := by
  obtain rfl := Option.mem_def.1 member
  obtain ⟨token, rfl, -⟩ := marked
  exact List.sublist_cons_self token body

theorem InOrder.clause {source : List Char} {name : String} {tokens : List Token}
    {clause : Clause} (ordered : InOrder source tokens)
    (found : Aggregation.splitClause name tokens = .ok clause) : ClauseInOrder source clause := by
  obtain ⟨middle, behind, rfl, isWhere, isArrow⟩ := Aggregation.splitClause_marked found
  have first : (clause.collection ++ middle).Sublist (clause.collection ++ middle ++ behind) :=
    List.sublist_append_left _ _
  refine ⟨ordered.sublist ((List.sublist_append_left _ _).trans first), ?_, ?_⟩
  · intro body member
    exact ordered.sublist (((sublist_of_marked isWhere member).trans
      (List.sublist_append_right _ _)).trans first)
  · intro body member
    exact ordered.sublist ((sublist_of_marked isArrow member).trans
      (List.sublist_append_right _ _))

theorem keyed_inOrder {source : List Char} {name : String} {parts : List (List Token)}
    {clause : Clause} {key : Key} (ordered : ∀ part ∈ parts, InOrder source part)
    (found : Aggregation.splitKeyed name parts = .ok (clause, key)) :
    ClauseInOrder source clause ∧ InOrder source key.body := by
  have body {tokens : List Token} (inside : InOrder source tokens)
      (cut : Aggregation.splitKey name tokens = .ok key) : InOrder source key.body := by
    obtain ⟨parameter, arrow, rfl, -, -⟩ := Aggregation.splitKey_eq_ok cut
    exact inside.sublist ((List.sublist_cons_self _ _).trans (List.sublist_cons_self _ _))
  rcases Aggregation.splitKeyed_eq_ok found with
    ⟨tokens, rfl, rfl, cut⟩ | ⟨before, tokens, rfl, split, -, cut⟩
  · exact ⟨⟨.nil, by simp, by simp⟩, body (ordered tokens (by simp)) cut⟩
  · exact ⟨(ordered before (by simp)).clause split, body (ordered tokens (by simp)) cut⟩

end Checked

end Formulary
