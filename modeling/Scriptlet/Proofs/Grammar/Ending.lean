import Scriptlet.Proofs.Grammar.Completeness
import Scriptlet.Proofs.Parser.Like

/-!
# How a text ends

The tokens of a text may stop at its end, with a token that marks it or without one, or go on behind the
mark. The parser reads up to the first mark in any case. What differs is the token at which an error at
the end is noticed: the mark, and where there is none the last token.

The one rule that could tell the cases apart is the operand that looks at the last token when none is
left. It would take a literal there a second time. That no rule comes to it is what makes texts with
different ends alike (`State.Ready`), so the results are about `Ahead` only.

Results:
* `end_only_locates`: **without its end a text is parsed as with it, and what is behind the end is not
  looked at.**
-/

namespace Scriptlet

/-- The error when the end of the text is not marked: what is noticed at the end is noticed at `last`. -/
def SyntaxError.unmarked (last : Token) (e : SyntaxError) : SyntaxError :=
  if e.token.is .endOfText then ⟨last, e.fault⟩ else e

theorem SyntaxError.message_unmarked (last : Token) (e : SyntaxError) :
    (e.unmarked last).diagnostic.message = e.diagnostic.message := by
  unfold unmarked
  split_ifs
  · rfl
  · rfl

namespace Grammar

open Scriptlet.Parser (Ahead Contrast)

/-- The same tokens with different ends: errors are noticed at the same token, or at `last` and at the
mark `eof`. -/
def endings (last eof : Token) : Contrast where
  line := Eq
  token t t' := t = t' ∨ t = last ∧ t' = eof
  alike _ _ h := .inl h.eq

/-- Texts that begin with the same tokens are alike if what follows is. -/
theorem ahead_append {C : Contrast} (hC : ∀ l, C.line l l) (ts : List Token) {us vs : List Token}
    {last : Token} (h : Ahead C (ts.getLastD last) us (ts.getLastD last) vs) :
    Ahead C last (ts ++ us) last (ts ++ vs) := by
  induction ts generalizing last with
  | nil => exact h
  | cons t ts ih => exact .cons ⟨rfl, rfl, hC t.line⟩ (ih (by rwa [List.getLastD_cons] at h))

/-- An error noticed at a token of the text, or at its last token instead of the mark, is what the error
with the mark becomes without it. -/
theorem eq_unmarked {ts : List Token} {last eof : Token} (hts : NoEnd ts)
    (heof : eof.is .endOfText = true) {e e' : SyntaxError} (he : (endings last eof).Error e e')
    (hmem : e.token ∈ ts) : e = e'.unmarked last := by
  obtain ⟨token, fault⟩ := e
  obtain ⟨token', fault'⟩ := e'
  obtain ⟨htoken, rfl : fault = fault'⟩ := he
  unfold SyntaxError.unmarked
  rcases htoken with rfl | ⟨rfl, rfl⟩
  · simp [hts _ hmem]
  · simp [heof]

/-- Nothing behind the first mark is looked at. -/
theorem parse_behind_end {eof : Token} (heof : eof.is .endOfText = true) (ts us vs : List Token)
    (ref ref' : RefId) :
    SameStmts (parse (ts ++ eof :: us) ref).program (parse (ts ++ eof :: vs) ref').program ∧
      (parse (ts ++ eof :: us) ref).errors = (parse (ts ++ eof :: vs) ref').errors := by
  have hahead : Ahead (.ofLines Eq) (ts.headD eof) (ts ++ eof :: us) (ts.headD eof)
      (ts ++ eof :: vs) :=
    ahead_append (fun _ => rfl) ts (.ended (by simp [heof]) (by simp [heof]) rfl eof.like_self)
  have hfirst (us : List Token) : (ts ++ eof :: us).head? = some (ts.headD eof) := by
    cases ts <;> rfl
  obtain ⟨hprogram, herrors⟩ := parse_alike (hfirst us) (hfirst vs) hahead ref ref'
  refine ⟨(Stmt.Like.unlabelledAll_eq hprogram).symm, Array.toList_inj.mp ?_⟩
  exact eq_of_forall₂ (fun _ _ h => h.eq Token.Like.eq) herrors

/-- Without the mark the last token takes its place in the errors. -/
theorem parse_unmarked {ts : List Token} (hts : NoEnd ts) (hne : ts ≠ []) {eof : Token}
    (heof : eof.is .endOfText = true) (ref ref' : RefId) :
    SameStmts (parse ts ref).program (parse (ts ++ [eof]) ref').program ∧
      (parse ts ref).errors = (parse (ts ++ [eof]) ref').errors.map (·.unmarked (ts.getLast hne)) := by
  have hahead : Ahead (endings (ts.getLast hne) eof) (ts.head hne) (ts ++ []) (ts.head hne)
      (ts ++ [eof]) := by
    refine ahead_append (fun _ => rfl) ts (.ended nofun (by simp [heof]) rfl (.inr ⟨?_, rfl⟩))
    simp [List.getLast?_eq_some_getLast hne]
  rw [List.append_nil] at hahead
  have hfirst : (ts ++ [eof]).head? = some (ts.head hne) := by
    rw [List.head?_append_of_ne_nil _ hne, List.head?_eq_some_head hne]
  obtain ⟨hprogram, herrors⟩ := parse_alike (List.head?_eq_some_head hne) hfirst hahead ref ref'
  refine ⟨(Stmt.Like.unlabelledAll_eq hprogram).symm, ?_⟩
  rw [← Array.toList_inj, Array.toList_map, ← List.forall₂_eq_eq_eq, List.forall₂_map_right_iff]
  have hmem : ∀ e ∈ (parse ts ref).errors.toList, e.token ∈ ts := fun e he =>
    (Parser.parse_over ts ref).2 e (Array.mem_toList_iff.mp he)
  have hwithin := (List.forall₂_and_left _ _).mpr ⟨hmem, herrors⟩
  exact hwithin.imp fun _ _ he => eq_unmarked hts heof he.2 he.1

/-- **Whether the end of a text is marked makes no difference but for locations.** What stands behind the
first mark has no influence on the statements, up to the identities of references, and none on the
errors. A text of at least one token without any mark is parsed into the same statements as with the
mark behind it, and with the same messages in the same order; an error noticed at the mark is noticed at
the last token without it, and all others are noticed where they were. -/
theorem end_only_locates {ts : List Token} (hts : NoEnd ts) {eof : Token}
    (heof : eof.is .endOfText = true) (ref ref' : RefId) :
    (∀ us vs, SameStmts (parse (ts ++ eof :: us) ref).program (parse (ts ++ eof :: vs) ref').program ∧
      (parse (ts ++ eof :: us) ref).errors = (parse (ts ++ eof :: vs) ref').errors) ∧
    ∀ hne : ts ≠ [],
      SameStmts (parse ts ref).program (parse (ts ++ [eof]) ref').program ∧
      (parse ts ref).errors.map (·.diagnostic.message) =
        (parse (ts ++ [eof]) ref').errors.map (·.diagnostic.message) ∧
      (parse ts ref).errors = (parse (ts ++ [eof]) ref').errors.map (·.unmarked (ts.getLast hne)) := by
  refine ⟨fun us vs => parse_behind_end heof ts us vs ref ref', fun hne => ?_⟩
  obtain ⟨hprogram, herrors⟩ := parse_unmarked hts hne heof ref ref'
  refine ⟨hprogram, ?_, herrors⟩
  rw [herrors, Array.map_map]
  exact congrArg (Array.map · _) (funext fun e => e.message_unmarked _)

/-- An operator without its right operand: the error is noticed at the operator. The string before it is
not taken for the operand. -/
theorem end_only_locates_operand :
    let plus : Token := ⟨.symbol .plus, "+", 1⟩
    let ts : List Token := [⟨.string "a", "a", 1⟩, plus]
    let eof : Token := ⟨.symbol .endOfText, "", 2⟩
    (parse (ts ++ [eof]) 0).errors = #[⟨eof, .noExpression⟩] ∧
      SameStmts (parse ts 0).program (parse (ts ++ [eof]) 0).program ∧
      (parse ts 0).errors = (parse (ts ++ [eof]) 0).errors.map (·.unmarked plus) ∧
      (parse (ts ++ eof :: ts) 0).errors = (parse (ts ++ [eof]) 0).errors := by
  intro plus ts eof
  have hts : NoEnd ts := by simp [ts, plus, NoEnd, Token.is]
  have heof : eof.is .endOfText = true := by decide
  obtain ⟨hbehind, hunmarked⟩ := end_only_locates hts heof 0 0
  obtain ⟨hprogram, -, herrors⟩ := hunmarked (by simp [ts])
  exact ⟨by decide +kernel, hprogram, herrors, (hbehind ts []).2⟩

end Grammar

end Scriptlet
