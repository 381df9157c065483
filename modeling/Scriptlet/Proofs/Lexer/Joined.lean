import Scriptlet.Proofs.Lexer.Reference
import Scriptlet.Proofs.Grammar.Completeness

/-!
# Texts below each other

A newline ends every piece of text but a string that is not closed. So a text, a newline and a second
text are read as the first one and then the second, only that what is found in the second stands
further down, by as many lines as the first one has.

Results:
* `Lexer.pieces_append_newline`: the pieces of a text, a newline and a second text.
* `lex_append_newline`, `bodyTokens_append_newline`: its items and tokens.
* `lex_below`: empty lines above a text only lower it.
* `line_mem_lines`: what is found in a text, tokens and errors, stands on one of its lines.
-/

namespace Scriptlet

/-- The number of lines of a text. -/
def lineCount (text : String) : Nat := text.toList.count '\n' + 1

/-- The text with so many empty lines above it. -/
def below (n : Nat) (text : String) : String := String.ofList (List.replicate n '\n') ++ text

/-- The token so many lines further down. -/
def Token.lowered (n : Nat) (t : Token) : Token := { t with line := t.line + n }

def LexItem.lowered (n : Nat) : LexItem → LexItem
  | token t => token (t.lowered n)
  | error e => error { e with line := e.line + n }

/-- The line that an item stands on. -/
def LexItem.line : LexItem → Nat
  | token t => t.line
  | error e => e.line

theorem LexItem.tokens_lowered (n : Nat) (items : List LexItem) :
    (items.map (lowered n)).filterMap token? = (items.filterMap token?).map (Token.lowered n) := by
  rw [List.filterMap_map, List.map_filterMap]
  refine congrArg (List.filterMap · items) (funext fun item => ?_)
  cases item <;> rfl

theorem LexItem.errors_lowered (n : Nat) {items : List LexItem} (h : items.filterMap error? = []) :
    (items.map (lowered n)).filterMap error? = [] := by
  rw [List.filterMap_map]
  refine List.filterMap_eq_nil_iff.mpr fun item hitem => ?_
  have := List.filterMap_eq_nil_iff.mp h item hitem
  cases item with
  | token t => rfl
  | error e => cases this

namespace Lexer

/-! ## A blank or a newline ends a piece -/

section
variable {p : Char → Bool} {text : List Char} {c : Char}

theorem Stops.append (h : Stops p text) (hc : p c = false) (more : List Char) :
    Stops p (text ++ c :: more) := by
  cases text with
  | nil =>
    intro d hd
    cases hd
    exact hc
  | cons d ds => exact h

theorem takeWhile_append_stop (hc : p c = false) (text more : List Char) :
    (text ++ c :: more).takeWhile p = text.takeWhile p := by
  obtain ⟨run, rest, rfl, hrun, hrest⟩ := exists_run p text
  rw [List.append_assoc, takeWhile_run hrun (hrest.append hc more), takeWhile_run hrun hrest]

theorem dropWhile_append_stop (hc : p c = false) (text more : List Char) :
    (text ++ c :: more).dropWhile p = text.dropWhile p ++ c :: more := by
  obtain ⟨run, rest, rfl, hrun, hrest⟩ := exists_run p text
  rw [List.append_assoc, dropWhile_run hrun (hrest.append hc more), dropWhile_run hrun hrest]

end

/-- A blank or a newline. -/
def Space (c : Char) : Prop := isBlank c = true ∨ c = '\n'

theorem Space.cases {c : Char} (h : Space c) : c = ' ' ∨ c = '\r' ∨ c = '\t' ∨ c = '\n' := by
  simpa [Space, isBlank, or_assoc] using h

theorem Space.not_wordChar {c : Char} (h : Space c) : isWordChar c = false := by
  rcases h.cases with rfl | rfl | rfl | rfl <;> rfl

theorem Space.not_digit {c : Char} (h : Space c) : isDigit c = false := by
  rcases h.cases with rfl | rfl | rfl | rfl <;> rfl

theorem Space.ne {c d : Char} (h : Space c) (hd : ¬ Space d) : c ≠ d := fun e => hd (e ▸ h)

theorem not_space_point : ¬ Space '.' := by simp [Space, isBlank]

theorem not_space_slash : ¬ Space '/' := by simp [Space, isBlank]

theorem not_space_second {c second : Char} {short long : Symbol}
    (h : double? c = some (short, second, long)) : ¬ Space second := by
  unfold double? at h
  split at h
  all_goals cases h
  all_goals simp [Space, isBlank]

variable (rest more : List Char)

theorem cutSlash_append_newline : cutSlash (rest ++ '\n' :: more) = cutSlash rest := by
  cases rest with
  | nil => rfl
  | cons d ds =>
    by_cases hd : d = '/'
    · subst hd
      simp only [List.cons_append, cutSlash]
      rw [takeWhile_append_stop rfl]
    · rw [cutSlash_slash (by simpa using hd), cutSlash_slash (by simpa using hd)]

section
variable {s : Char} (hs : Space s)
include hs

theorem head?_append_space {d : Char} (hd : ¬ Space d) :
    (rest ++ s :: more).head? = some d ↔ rest.head? = some d := by
  cases rest with
  | nil => simpa using hs.ne hd
  | cons e es => rfl

/-- A slash that is no comment. -/
theorem cutSlash_append_space (h : (cutSlash rest).kind ≠ .skipped) :
    cutSlash (rest ++ s :: more) = cutSlash rest := by
  have hrest : rest.head? ≠ some '/' := by
    intro hrest
    cases rest with
    | nil => cases hrest
    | cons d ds =>
      cases hrest
      exact h rfl
  rw [cutSlash_slash hrest,
    cutSlash_slash fun e => hrest ((head?_append_space rest more hs not_space_slash).mp e)]

theorem cutWord_append_space (c : Char) : cutWord c (rest ++ s :: more) = cutWord c rest := by
  unfold cutWord
  rw [takeWhile_append_stop hs.not_wordChar]

theorem cutNumber_append_space (c : Char) :
    cutNumber c (rest ++ s :: more) = cutNumber c rest := by
  unfold cutNumber
  rw [takeWhile_append_stop hs.not_digit, dropWhile_append_stop hs.not_digit]
  cases rest.dropWhile isDigit with
  | nil => simp [hs.ne not_space_point]
  | cons d ds =>
    by_cases hd : d = '.'
    · subst hd
      simp only [List.cons_append, takeWhile_append_stop hs.not_digit]
    · simp [hd]

end

/-- A string goes on behind any character, unless it has been closed. -/
theorem cutString_append (h : (cutString rest).kind ≠ .fault .unterminatedString) :
    cutString (rest ++ more) = cutString rest := by
  by_cases hquote : '"' ∈ rest
  · obtain ⟨body, after, rfl, hbody⟩ := exists_quote hquote
    rw [List.append_assoc, List.cons_append, cutString_closed hbody, cutString_closed hbody]
  · rw [cutString_open (run_of_not_mem hquote)] at h
    exact absurd rfl h

/-- A blank or a newline ends the first piece of a text, unless it is a string or a comment. -/
theorem cut_append_of_slash {s : Char} (hs : Space s) {c : Char}
    (hstring : (Piece.cut c rest).kind ≠ .fault .unterminatedString)
    (hslash : c = '/' → cutSlash (rest ++ s :: more) = cutSlash rest) :
    Piece.cut c (rest ++ s :: more) = Piece.cut c rest := by
  unfold Piece.cut at hstring ⊢
  split_ifs at hstring ⊢ with hspace hc
  · rfl
  · exact hslash (by simpa using hc)
  · exact cutString_append rest (s :: more) hstring
  · exact cutNumber_append_space rest more hs c
  · exact cutWord_append_space rest more hs c
  · cases single? c with
    | some s => rfl
    | none =>
      cases hdouble : double? c with
      | none => rfl
      | some r =>
        simp only [head?_append_space rest more hs (not_space_second hdouble)]

/-- **A newline ends the first piece of a text**, unless it is a string. -/
theorem cut_append_newline {c : Char}
    (h : (Piece.cut c rest).kind ≠ .fault .unterminatedString) :
    Piece.cut c (rest ++ '\n' :: more) = Piece.cut c rest :=
  cut_append_of_slash rest more (.inr rfl) h fun _ => cutSlash_append_newline rest more

/-- **A blank ends a token**, as a newline does. -/
theorem cut_append_space {s c : Char} (hs : Space s) {kind : TokenKind}
    (h : (Piece.cut c rest).kind = .token kind) :
    Piece.cut c (rest ++ s :: more) = Piece.cut c rest := by
  refine cut_append_of_slash rest more hs (by simp [h]) fun hc => ?_
  subst hc
  rw [cut_slash] at h
  exact cutSlash_append_space rest more hs (by simp [h])

/-- The piece that a newline is. -/
def newline : Piece := ⟨.skipped, ['\n']⟩

theorem pieces_newline (more : List Char) : pieces ('\n' :: more) = newline :: pieces more :=
  pieces_cons '\n' more

/-- **Below a newline, reading starts anew**, unless it is in a string that is not closed. -/
theorem pieces_append_newline (text more : List Char)
    (h : ∀ p ∈ pieces text, p.kind ≠ .fault .unterminatedString) :
    pieces (text ++ '\n' :: more) = pieces text ++ newline :: pieces more := by
  induction hn : text.length using Nat.strong_induction_on generalizing text with
  | _ n ih =>
    cases text with
    | nil => exact pieces_newline more
    | cons c rest =>
      rw [pieces_cons] at h
      obtain ⟨hfirst, hothers⟩ := List.forall_mem_cons.mp h
      have hcut := cut_append_newline rest more hfirst
      have hle : (Piece.cut c rest).text.length ≤ (c :: rest).length :=
        (candidate_cut c rest).isPrefix.length_le
      have hlt : ((c :: rest).drop (Piece.cut c rest).text.length).length < n := by
        have := length_cut_pos c rest
        rw [List.length_drop]
        omega
      rw [List.cons_append, pieces_cons, hcut, pieces_cons, ← List.cons_append,
        List.drop_append_of_le_length hle, ih _ hlt _ hothers rfl, List.cons_append]

/-! ## Items -/

theorem itemsFrom_lowered (n line : Nat) (ps : List Piece) :
    itemsFrom (line + n) ps = (itemsFrom line ps).map (LexItem.lowered n) := by
  induction ps generalizing line with
  | nil => rfl
  | cons p ps ih =>
    rw [itemsFrom_cons, itemsFrom_cons, Nat.add_right_comm, ih, List.map_append]
    congr 1
    unfold Piece.item?
    cases p.kind <;> rfl

/-- The items of pieces are those of the first ones, less the end of the text, and those of the
others. -/
theorem itemsFrom_append (line : Nat) (ps : List Piece) :
    ∃ body, itemsFrom line ps = body ++ [.token ⟨.symbol .endOfText, "",
        line + (ps.flatMap Piece.text).count '\n'⟩] ∧
      ∀ qs, itemsFrom line (ps ++ qs) =
        body ++ itemsFrom (line + (ps.flatMap Piece.text).count '\n') qs := by
  induction ps generalizing line with
  | nil => exact ⟨[], rfl, fun _ => rfl⟩
  | cons p ps ih =>
    obtain ⟨body, hbody, happend⟩ := ih (line + p.text.count '\n')
    rw [Nat.add_assoc, ← List.count_append, ← List.flatMap_cons] at hbody happend
    refine ⟨(p.item? (line + p.text.count '\n')).toList ++ body, ?_, fun qs => ?_⟩
    · rw [itemsFrom_cons, hbody, List.append_assoc]
    · rw [List.cons_append, itemsFrom_cons, happend, List.append_assoc]

/-- An item stands on one of the lines of its pieces. -/
theorem line_of_item {line : Nat} {ps : List Piece} {item : LexItem} (h : item ∈ itemsFrom line ps) :
    line ≤ item.line ∧ item.line ≤ line + (ps.flatMap Piece.text).count '\n' := by
  induction ps generalizing line with
  | nil =>
    cases List.mem_singleton.mp h
    simp [LexItem.line]
  | cons p ps ih =>
    rw [List.flatMap_cons, List.count_append]
    rw [itemsFrom_cons] at h
    rcases List.mem_append.mp h with h | h
    · have hline : item.line = line + p.text.count '\n' := by
        unfold Piece.item? at h
        cases hk : p.kind with
        | token kind =>
          rw [hk] at h
          cases List.mem_singleton.mp h
          rfl
        | skipped =>
          rw [hk] at h
          cases h
        | fault f =>
          rw [hk] at h
          cases List.mem_singleton.mp h
          rfl
      omega
    · have := ih h
      omega

theorem texts_pieces (source : List Char) : (pieces source).flatMap Piece.text = source :=
  texts_of_reading (reading_pieces source [])

/-- A piece that is a fault yields an error. -/
theorem error_of_piece {line : Nat} {ps : List Piece} {p : Piece} {fault : LexicalFault}
    (hp : p ∈ ps) (hfault : p.kind = .fault fault) :
    (itemsFrom line ps).filterMap LexItem.error? ≠ [] := by
  induction ps generalizing line with
  | nil => cases hp
  | cons q ps ih =>
    rw [itemsFrom_cons, List.filterMap_append]
    rcases List.mem_cons.mp hp with rfl | hp
    · simp [Piece.item?, hfault, LexItem.error?]
    · exact List.append_ne_nil_of_right_ne_nil _ (ih hp)

end Lexer

open Lexer

/-! ## Texts -/

/-- **Two texts with a newline between them**: the items of the first one, less its end, and those of
the second, further down. -/
theorem lex_append_newline (a b : String) (h : (lex a).filterMap LexItem.error? = []) :
    ∃ body eof, lex a = body ++ [.token eof] ∧ eof.is .endOfText = true ∧
      lex (a ++ "\n" ++ b) = body ++ (lex b).map (LexItem.lowered (lineCount a)) := by
  obtain ⟨body, hbody, happend⟩ := itemsFrom_append 1 (pieces a.toList)
  rw [texts_pieces] at hbody happend
  have hpieces : pieces (a ++ "\n" ++ b).toList =
      pieces a.toList ++ newline :: pieces b.toList := by
    rw [String.toList_append, String.toList_append, List.append_assoc]
    exact pieces_append_newline _ _ fun p hp hkind => error_of_piece hp hkind h
  refine ⟨body, _, hbody, rfl, ?_⟩
  unfold lex
  rw [hpieces, happend, ← itemsFrom_lowered, itemsFrom_cons]
  rfl

/-- **The tokens of two texts with a newline between them.** -/
theorem bodyTokens_append_newline (a b : String) (h : (lex a).filterMap LexItem.error? = []) :
    Grammar.bodyTokens (a ++ "\n" ++ b) = Grammar.bodyTokens a ++
      (Grammar.bodyTokens b).map (Token.lowered (lineCount a)) := by
  obtain ⟨body, eof, ha, heof, hab⟩ := lex_append_newline a b h
  obtain ⟨eof', htokens, hinside, -⟩ := Grammar.tokens_eq_body a
  have hbody : body.filterMap LexItem.token? = Grammar.bodyTokens a := by
    rw [ha, List.filterMap_append] at htokens
    exact (List.append_inj' htokens rfl).1
  have hcomp : (fun t : Token => !t.is .endOfText) ∘ Token.lowered (lineCount a) =
      fun t : Token => !t.is .endOfText := rfl
  rw [Grammar.bodyTokens, hab, List.filterMap_append, hbody, LexItem.tokens_lowered,
    List.takeWhile_append_of_pos fun t ht => by rw [(hinside t ht).inside]; rfl,
    List.takeWhile_map, hcomp]
  rfl

theorem errors_append_newline {a b : String} (ha : (lex a).filterMap LexItem.error? = [])
    (hb : (lex b).filterMap LexItem.error? = []) :
    (lex (a ++ "\n" ++ b)).filterMap LexItem.error? = [] := by
  obtain ⟨body, eof, hbody, -, hab⟩ := lex_append_newline a b ha
  rw [hbody, List.filterMap_append] at ha
  rw [hab, List.filterMap_append, (List.append_eq_nil_iff.mp ha).1, List.nil_append]
  exact LexItem.errors_lowered _ hb

/-- **Empty lines above a text lower what is found in it.** -/
theorem lex_below (n : Nat) (text : String) :
    lex (below n text) = (lex text).map (LexItem.lowered n) := by
  have hitems (line : Nat) : itemsFrom line (pieces (List.replicate n '\n' ++ text.toList)) =
      itemsFrom (line + n) (pieces text.toList) := by
    induction n generalizing line with
    | zero => rfl
    | succ n ih =>
      rw [List.replicate_succ, List.cons_append, pieces_newline, itemsFrom_cons]
      change itemsFrom (line + 1) _ = _
      rw [ih, Nat.add_assoc, Nat.add_comm 1]
  unfold lex below
  rw [String.toList_append, String.toList_ofList, hitems, itemsFrom_lowered]

/-- **What is found in a text stands on one of its lines.** -/
theorem line_mem_lines {source : String} {item : LexItem} (h : item ∈ lex source) :
    1 ≤ item.line ∧ item.line ≤ lineCount source := by
  have := line_of_item h
  rw [texts_pieces] at this
  unfold lineCount
  omega

theorem token_mem_lex {source : String} {t : Token} (h : t ∈ (lex source).filterMap LexItem.token?) :
    .token t ∈ lex source := by
  obtain ⟨item, hitem, ht⟩ := List.mem_filterMap.mp h
  cases item with
  | error e => cases ht
  | token u =>
    cases ht
    exact hitem

theorem error_mem_lex {source : String} {e : LexicalError}
    (h : e ∈ (lex source).filterMap LexItem.error?) : .error e ∈ lex source := by
  obtain ⟨item, hitem, he⟩ := List.mem_filterMap.mp h
  cases item with
  | token t => cases he
  | error e' =>
    cases he
    exact hitem

end Scriptlet
