import Scriptlet.Token.Lexer
import Mathlib.Tactic.Common

/-!
# The tokens of a text

What the parser and the scopes rely on: the tokens of a text are those of its pieces and one for the
end of the text, which comes last and nowhere else; and a name or keyword is the symbol of its text,
so that no name is spelled like a keyword.

Results: `tokens_lex`, `Token.Spelled`, `Token.Spelled.name_ne`, `Token.Spelled.keyword`.
-/

namespace Scriptlet

/-- The symbols that are words: names and keywords. -/
def Symbol.isWord (k : Symbol) : Bool := k = .identifier || Symbol.keywords.any (·.2 = k)

/-- The symbol of a word is that of a name or stands beside the word in the table. -/
theorem Symbol.ofWord_cases (word : String) :
    ofWord word = .identifier ∨ (word, ofWord word) ∈ keywords := by
  cases h : keywords.lookup word with
  | none => exact .inl (by rw [ofWord, h]; rfl)
  | some k =>
    right
    obtain ⟨before, after, heq, -⟩ := List.lookup_eq_some_iff.mp h
    rw [ofWord, h, heq]
    simp

/-- The token is not the end of the text, and if it is a word, it is the symbol of its text. -/
structure Token.Spelled (t : Token) : Prop where
  inside : t.is .endOfText = false
  word (k : Symbol) (h : t.is k = true) (hk : k.isWord = true) : Symbol.ofWord t.lexeme = k

namespace Token.Spelled

variable {t : Token}

/-- A name is no keyword. -/
theorem name_ne (h : t.Spelled) (ht : t.is .identifier = true) {word : String}
    (hw : Symbol.ofWord word ≠ .identifier) : t.lexeme ≠ word := by
  rintro rfl
  exact hw (h.word _ ht (by decide))

theorem this (h : t.Spelled) (ht : t.is .thisKw = true) : t.lexeme = "this" := by
  have hw := h.word _ ht (by decide)
  rcases Symbol.ofWord_cases t.lexeme with hi | hm
  · exact absurd (hw.symm.trans hi) (by decide)
  · simpa [hw, Symbol.keywords] using hm

theorem super (h : t.Spelled) (ht : t.is .superKw = true) : t.lexeme = "super" := by
  have hw := h.word _ ht (by decide)
  rcases Symbol.ofWord_cases t.lexeme with hi | hm
  · exact absurd (hw.symm.trans hi) (by decide)
  · simpa [hw, Symbol.keywords] using hm

end Token.Spelled

namespace Lexer

/-- What is said of a token, said of the piece it comes from. -/
def Piece.Spelled (p : Piece) : Prop :=
  ∀ k, p.kind = .token (.symbol k) →
    k ≠ .endOfText ∧ (k.isWord = true → Symbol.ofWord (String.ofList p.text) = k)

theorem symbolPiece_spelled {k : Symbol} {text : List Char} (he : k ≠ .endOfText)
    (hw : k.isWord = false) : (symbolPiece k text).Spelled := by
  intro k' hk'
  obtain rfl : k = k' := by simpa [symbolPiece] using hk'
  exact ⟨he, fun h => absurd (hw.symm.trans h) Bool.false_ne_true⟩

theorem ofWord_ne_end (word : String) : Symbol.ofWord word ≠ .endOfText := by
  intro he
  rcases Symbol.ofWord_cases word with hi | hm
  · exact absurd (he.symm.trans hi) (by decide)
  · simp [he, Symbol.keywords] at hm

theorem cutWord_spelled (c : Char) (rest : List Char) : (cutWord c rest).Spelled := by
  intro k hk
  have hk' : Symbol.ofWord (String.ofList (c :: rest.takeWhile isWordChar)) = k := by
    simpa [cutWord, symbolPiece] using hk
  exact ⟨hk' ▸ ofWord_ne_end _, fun _ => hk'⟩

theorem cutString_spelled (rest : List Char) : (cutString rest).Spelled := by
  intro k hk
  unfold cutString at hk
  simp only at hk
  split at hk <;> simp at hk

theorem cutNumber_spelled (c : Char) (rest : List Char) : (cutNumber c rest).Spelled := by
  intro k hk
  unfold cutNumber at hk
  simp only at hk
  split at hk
  · split_ifs at hk <;> simp at hk
  · simp at hk

theorem cutSlash_spelled (rest : List Char) : (cutSlash rest).Spelled := by
  unfold cutSlash
  split
  · intro k hk; simp at hk
  · exact symbolPiece_spelled (by decide) (by decide)

theorem single?_not_word {c : Char} {k : Symbol} (h : single? c = some k) :
    k ≠ .endOfText ∧ k.isWord = false := by
  unfold single? at h
  split at h <;> cases h <;> decide

theorem double?_not_word {c second : Char} {short long : Symbol}
    (h : double? c = some (short, second, long)) :
    (short ≠ .endOfText ∧ short.isWord = false) ∧ long ≠ .endOfText ∧ long.isWord = false := by
  unfold double? at h
  split at h <;> cases h <;> decide

theorem cut_spelled (c : Char) (rest : List Char) : (Piece.cut c rest).Spelled := by
  unfold Piece.cut
  split_ifs
  · intro k hk; simp at hk
  · exact cutSlash_spelled rest
  · exact cutString_spelled rest
  · exact cutNumber_spelled c rest
  · exact cutWord_spelled c rest
  · split
    · next k hk => exact symbolPiece_spelled (single?_not_word hk).1 (single?_not_word hk).2
    · split
      · next hk =>
        obtain ⟨hshort, hlong⟩ := double?_not_word hk
        split_ifs
        · exact symbolPiece_spelled hlong.1 hlong.2
        · exact symbolPiece_spelled hshort.1 hshort.2
      · intro k hk; simp at hk

theorem piecesUpTo_spelled : ∀ n source, ∀ p ∈ piecesUpTo n source, p.Spelled
  | 0, _, _, h => by simp [piecesUpTo] at h
  | _ + 1, [], _, h => by simp [piecesUpTo] at h
  | n + 1, c :: rest, p, h => by
    unfold piecesUpTo at h
    rcases List.mem_cons.mp h with rfl | h
    · exact cut_spelled c rest
    · exact piecesUpTo_spelled n _ p h

/-- The tokens of pieces: each is spelled, and the end of the text comes last. -/
theorem tokens_itemsFrom (ps : List Piece) (hps : ∀ p ∈ ps, p.Spelled) (line : Nat) :
    ∃ body eof, (itemsFrom line ps).filterMap LexItem.token? = body ++ [eof] ∧
      (∀ t ∈ body, t.Spelled) ∧ eof.is .endOfText = true := by
  induction ps generalizing line with
  | nil => exact ⟨[], ⟨.symbol .endOfText, "", line⟩, rfl, nofun, rfl⟩
  | cons p ps ih =>
    obtain ⟨body, eof, htokens, hbody, heof⟩ :=
      ih (fun q hq => hps q (List.mem_cons_of_mem p hq)) (line + p.text.count '\n')
    unfold itemsFrom
    simp only [Piece.item?]
    cases hkind : p.kind with
    | skipped => exact ⟨body, eof, htokens, hbody, heof⟩
    | fault f => exact ⟨body, eof, htokens, hbody, heof⟩
    | token kind =>
      refine ⟨⟨kind, String.ofList p.text, line + p.text.count '\n'⟩ :: body, eof,
        by simp [LexItem.token?, htokens], ?_, heof⟩
      refine List.forall_mem_cons.mpr ⟨⟨?_, fun k hk hw => ?_⟩, hbody⟩
      · refine decide_eq_false fun hk => ?_
        exact (hps p List.mem_cons_self _ (hkind.trans (congrArg _ hk))).1 rfl
      · have hk' : kind = .symbol k := of_decide_eq_true hk
        exact (hps p List.mem_cons_self k (hkind.trans (congrArg _ hk'))).2 hw

end Lexer

/-- **The tokens of a text are well spelled and end with the end of the text.** -/
theorem tokens_lex (source : String) :
    ∃ body eof, (lex source).filterMap LexItem.token? = body ++ [eof] ∧
      (∀ t ∈ body, t.Spelled) ∧ eof.is .endOfText = true :=
  Lexer.tokens_itemsFrom _ (Lexer.piecesUpTo_spelled _ _) 1

end Scriptlet
