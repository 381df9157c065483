import Scriptlet.Proofs.Lexer.Joined

/-!
# Lexemes, spaced out

Lexemes can be taken out of their text and put into another one: with a `Separator` between any two,
that is something blank and then blanks, newlines and comments in any order (`Gap`), each lexeme is cut
off whole again. Of a piece what counts here is its `content?`, the kind of token and its text: where
it stands is not the same in the two texts.

Results:
* `Lexeme.cut_append`: **a lexeme before a blank is cut off whole**, whatever follows.
* `Yields.of_spaced`: the pieces of spaced lexemes.
* `lex_spaced`: **the lexemes of a text, spaced out, are read as the same tokens.**
-/

namespace Scriptlet

/-- What a token is and how it is written, wherever it stands. -/
def Token.content (t : Token) : TokenKind × String := (t.kind, t.lexeme)

namespace Lexer

/-! ## What stands between lexemes -/

/-- Blanks, newlines and comments, each comment with the newline that ends it. -/
inductive Gap : List Char → Prop
  | nil : Gap []
  | space {c : Char} {rest : List Char} (hc : Space c) (h : Gap rest) : Gap (c :: rest)
  | comment {body rest : List Char} (hbody : '\n' ∉ body) (h : Gap rest) :
    Gap ('/' :: '/' :: (body ++ '\n' :: rest))

/-- A gap that begins with a blank or a newline. -/
inductive Separator : List Char → Prop
  | intro {c : Char} {rest : List Char} (hc : Space c) (h : Gap rest) : Separator (c :: rest)

/-- **The parts one after the other, with a separator between any two**, and nothing else. -/
inductive Spaced : List (List Char) → List Char → Prop
  | none : Spaced [] []
  | one (part : List Char) : Spaced [part] part
  | more {part next separator text : List Char} {parts : List (List Char)}
    (hs : Separator separator) (h : Spaced (next :: parts) text) :
    Spaced (part :: next :: parts) (part ++ (separator ++ text))

/-! ## Every token is a lexeme -/

theorem candidate_of_mem {before source : List Char} {ps : List Piece} {items : List LexItem}
    (h : Reading before source ps items) {p : Piece} (hp : p ∈ ps) :
    ∃ rest, Candidate rest p.kind p.text := by
  induction h with
  | done => cases hp
  | piece hlongest _ ih =>
    rcases List.mem_cons.mp hp with rfl | hp
    · exact ⟨_, hlongest.candidate⟩
    · exact ih hp

/-- **The text of a token is a lexeme** of its kind. -/
theorem lexeme_of_mem {source : List Char} {p : Piece} (hp : p ∈ pieces source) {kind : TokenKind}
    (hkind : p.kind = .token kind) : Lexeme (.token kind) p.text := by
  obtain ⟨rest, h⟩ := candidate_of_mem (reading_pieces source []) hp
  rw [hkind] at h
  cases h with
  | lexeme h => exact h

/-! ## A lexeme is cut off whole -/

theorem Lexeme.longest {kind : PieceKind} {text : List Char} (h : Lexeme kind text) :
    Longest text ⟨kind, text⟩ where
  candidate := by simpa using @Candidate.lexeme kind text [] h
  longest _ _ h := h.isPrefix.length_le

/-- **A lexeme before a blank is cut off whole**, whatever follows. -/
theorem Lexeme.cut_append {kind : TokenKind} {text : List Char} (h : Lexeme (.token kind) text)
    {s : Char} (hs : Space s) (more : List Char) :
    pieces (text ++ s :: more) = ⟨.token kind, text⟩ :: pieces (s :: more) := by
  obtain ⟨c, rest, rfl⟩ := List.exists_cons_of_ne_nil h.ne_nil
  have hcut : Piece.cut c rest = ⟨.token kind, c :: rest⟩ := (longest_iff.mp h.longest).symm
  have happend : Piece.cut c (rest ++ s :: more) = ⟨.token kind, c :: rest⟩ := by
    rw [cut_append_space rest more hs (by rw [hcut]), hcut]
  refine @pieces_of_longest ⟨.token kind, c :: rest⟩ (s :: more) ?_
  exact longest_iff.mpr happend.symm

theorem Lexeme.pieces_eq {kind : PieceKind} {text : List Char} (h : Lexeme kind text) :
    pieces text = [⟨kind, text⟩] := by
  have := @pieces_of_longest ⟨kind, text⟩ [] (by simpa using h.longest)
  rwa [List.append_nil] at this

/-! ## What texts yield -/

/-- What a piece says, if it is a token. -/
def Piece.content? (p : Piece) : Option (TokenKind × String) :=
  match p.kind with
  | .token kind => some (kind, String.ofList p.text)
  | _ => none

/-- **The pieces of the text are without fault, and its tokens say this.** -/
structure Yields (text : List Char) (contents : List (TokenKind × String)) : Prop where
  contents : (pieces text).filterMap Piece.content? = contents
  faultless : ∀ p ∈ pieces text, ∀ fault, p.kind ≠ .fault fault

theorem Yields.nil : Yields [] [] := ⟨rfl, nofun⟩

theorem Yields.skip {text rest skipped : List Char} {contents : List (TokenKind × String)}
    (hpieces : pieces text = ⟨.skipped, skipped⟩ :: pieces rest) (h : Yields rest contents) :
    Yields text contents := by
  refine ⟨?_, ?_⟩
  · rw [hpieces]
    exact h.contents
  · rw [hpieces]
    exact List.forall_mem_cons.mpr ⟨nofun, h.faultless⟩

theorem Yields.token {text rest lexeme : List Char} {kind : TokenKind}
    {contents : List (TokenKind × String)}
    (hpieces : pieces text = ⟨.token kind, lexeme⟩ :: pieces rest) (h : Yields rest contents) :
    Yields text ((kind, String.ofList lexeme) :: contents) := by
  refine ⟨?_, ?_⟩
  · rw [hpieces, ← h.contents]
    rfl
  · rw [hpieces]
    exact List.forall_mem_cons.mpr ⟨nofun, h.faultless⟩

theorem pieces_space {c : Char} (hc : Space c) (rest : List Char) :
    pieces (c :: rest) = ⟨.skipped, [c]⟩ :: pieces rest := by
  rw [pieces_cons, cut_space hc]
  rfl

theorem pieces_comment {body : List Char} (h : '\n' ∉ body) (rest : List Char) :
    pieces ('/' :: '/' :: (body ++ '\n' :: rest)) =
      ⟨.skipped, '/' :: '/' :: body⟩ :: pieces ('\n' :: rest) := by
  have hstop : Stops (· != '\n') ('\n' :: rest) := fun c hc => by cases hc; rfl
  have hcut : Piece.cut '/' ('/' :: (body ++ '\n' :: rest)) = ⟨.skipped, '/' :: '/' :: body⟩ :=
    cutSlash_comment (run_of_not_mem h) hstop
  refine @pieces_of_longest ⟨.skipped, '/' :: '/' :: body⟩ ('\n' :: rest) ?_
  exact longest_iff.mpr hcut.symm

theorem Yields.gap {gap rest : List Char} {contents : List (TokenKind × String)} (hgap : Gap gap)
    (h : Yields rest contents) : Yields (gap ++ rest) contents := by
  induction hgap with
  | nil => exact h
  | space hc _ ih => exact .skip (pieces_space hc _) ih
  | @comment body gap hbody _ ih =>
    have hcomment := pieces_comment hbody (gap ++ rest)
    rw [show '/' :: '/' :: (body ++ '\n' :: gap) ++ rest =
      '/' :: '/' :: (body ++ '\n' :: (gap ++ rest)) by simp]
    exact .skip hcomment (.skip (pieces_newline _) ih)

/-- Lexemes and what they say; the end of the text may be among them, as an empty part. -/
inductive Parts : List (List Char) → List (TokenKind × String) → Prop
  | none : Parts [] []
  | ending : Parts [[]] []
  | token {kind : TokenKind} {text : List Char} {parts : List (List Char)}
    {contents : List (TokenKind × String)} (h : Lexeme (.token kind) text)
    (hs : Parts parts contents) : Parts (text :: parts) ((kind, String.ofList text) :: contents)

/-- **Spaced lexemes yield what they say.** -/
theorem Yields.of_spaced {parts : List (List Char)} {text : List Char} (h : Spaced parts text)
    {contents : List (TokenKind × String)} (hparts : Parts parts contents) :
    Yields text contents := by
  induction h generalizing contents with
  | none =>
    cases hparts
    exact .nil
  | one part =>
    cases hparts with
    | ending => exact .nil
    | token h hs =>
      cases hs
      exact @Yields.token _ [] _ _ _ h.pieces_eq .nil
  | more hseparator _ ih =>
    cases hseparator with
    | intro hc hgap =>
      cases hparts with
      | token h hs => exact .token (h.cut_append hc _) (.skip (pieces_space hc _) (.gap hgap (ih hs)))

/-! ## Items -/

theorem contents_itemsFrom (line : Nat) (ps : List Piece) :
    ((itemsFrom line ps).filterMap LexItem.token?).map Token.content =
      ps.filterMap Piece.content? ++ [(.symbol .endOfText, "")] := by
  induction ps generalizing line with
  | nil => rfl
  | cons p ps ih =>
    rw [itemsFrom_cons, List.filterMap_append, List.map_append, ih]
    unfold Piece.item?
    cases hkind : p.kind <;> simp [Piece.content?, hkind, LexItem.token?, Token.content]

theorem errors_itemsFrom {line : Nat} {ps : List Piece}
    (h : ∀ p ∈ ps, ∀ fault, p.kind ≠ .fault fault) :
    (itemsFrom line ps).filterMap LexItem.error? = [] := by
  induction ps generalizing line with
  | nil => rfl
  | cons p ps ih =>
    obtain ⟨hp, hps⟩ := List.forall_mem_cons.mp h
    rw [itemsFrom_cons, List.filterMap_append, ih hps, List.append_nil]
    unfold Piece.item?
    cases hkind : p.kind with
    | fault fault => exact absurd hkind (hp fault)
    | _ => rfl

theorem parts_of_pieces {ps : List Piece}
    (h : ∀ p ∈ ps, ∀ kind, p.kind = .token kind → Lexeme (.token kind) p.text) :
    Parts ((ps.filterMap Piece.content?).map (·.2.toList)) (ps.filterMap Piece.content?) ∧
      Parts ((ps.filterMap Piece.content?).map (·.2.toList) ++ [[]])
        (ps.filterMap Piece.content?) := by
  induction ps with
  | nil => exact ⟨.none, .ending⟩
  | cons p ps ih =>
    obtain ⟨hp, hps⟩ := List.forall_mem_cons.mp h
    obtain ⟨hbody, hall⟩ := ih hps
    cases hkind : p.kind with
    | token kind =>
      have hcontent : p.content? = some (kind, String.ofList p.text) := by
        rw [Piece.content?, hkind]
      rw [List.filterMap_cons_some hcontent, List.map_cons, String.toList_ofList]
      exact ⟨.token (hp kind hkind) hbody, .token (hp kind hkind) hall⟩
    | _ =>
      have hcontent : p.content? = none := by rw [Piece.content?, hkind]
      rw [List.filterMap_cons_none hcontent]
      exact ⟨hbody, hall⟩

end Lexer

open Lexer

/-- **The lexemes of a text, spaced out, are read as the same tokens.** Take the lexemes of a text, with
or without the empty one of its end, and put separators between them, whichever they are: the text that
results is without lexical error, and its tokens are of the same kinds, with the same values, and have
the same lexemes. Where the first text has lexical errors, they are left behind. -/
theorem lex_spaced {source text : String}
    (htext : Spaced ((Grammar.bodyTokens source).map (·.lexeme.toList)) text.toList ∨
      Spaced (((lex source).filterMap LexItem.token?).map (·.lexeme.toList)) text.toList) :
    (lex text).filterMap LexItem.error? = [] ∧
      ((lex text).filterMap LexItem.token?).map Token.content =
        ((lex source).filterMap LexItem.token?).map Token.content := by
  have hlexemes (ts : List Token) :
      ts.map (·.lexeme.toList) = (ts.map Token.content).map (·.2.toList) := by
    rw [List.map_map]
    rfl
  have hcontents := contents_itemsFrom 1 (pieces source.toList)
  obtain ⟨eof, htokens, -, -⟩ := Grammar.tokens_eq_body source
  obtain ⟨hbody, hall⟩ := parts_of_pieces fun p hp _ => @lexeme_of_mem source.toList p hp _
  have hyields : Yields text.toList ((pieces source.toList).filterMap Piece.content?) := by
    rcases htext with htext | htext
    · rw [← lex, htokens, List.map_append] at hcontents
      rw [hlexemes, (List.append_inj' hcontents rfl).1] at htext
      exact .of_spaced htext hbody
    · rw [hlexemes, lex, hcontents, List.map_append] at htext
      exact .of_spaced htext hall
  refine ⟨errors_itemsFrom hyields.faultless, ?_⟩
  rw [lex, lex, contents_itemsFrom, contents_itemsFrom, hyields.contents]

/-- A number before a point, a name that begins like a keyword, an operator of two characters, a string
over two lines and a slash, with a comment between two of them. -/
theorem lex_spaced_comment :
    Spaced ((Grammar.bodyTokens "1.new_!=\"/\n\"/").map (·.lexeme.toList))
        "1 .\tnew_ //!\n!=\n\"/\n\" /".toList ∧
      (lex "1 .\tnew_ //!\n!=\n\"/\n\" /").filterMap LexItem.error? = [] ∧
      ((lex "1 .\tnew_ //!\n!=\n\"/\n\" /").filterMap LexItem.token?).map Token.content =
        ((lex "1.new_!=\"/\n\"/").filterMap LexItem.token?).map Token.content := by
  have hlexemes : (Grammar.bodyTokens "1.new_!=\"/\n\"/").map (·.lexeme.toList) =
      [['1'], ['.'], ['n', 'e', 'w', '_'], ['!', '='], ['"', '/', '\n', '"'], ['/']] := by
    decide +kernel
  have hspaced : Spaced ((Grammar.bodyTokens "1.new_!=\"/\n\"/").map (·.lexeme.toList))
      "1 .\tnew_ //!\n!=\n\"/\n\" /".toList := by
    have hblank {c : Char} (h : Space c) : Separator [c] := .intro h .nil
    have hcomment : Separator [' ', '/', '/', '!', '\n'] :=
      .intro (.inl rfl) (@Gap.comment ['!'] [] (by decide) .nil)
    rw [hlexemes]
    exact .more (hblank (.inl rfl)) (.more (hblank (.inl rfl)) (.more hcomment
      (.more (hblank (.inr rfl)) (.more (hblank (.inl rfl)) (.one _)))))
  exact ⟨hspaced, lex_spaced (.inl hspaced)⟩

end Scriptlet
