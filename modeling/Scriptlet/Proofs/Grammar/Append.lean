import Scriptlet.Proofs.Grammar.Completeness
import Scriptlet.Proofs.Parser.Like

/-!
# Parsing what follows a program

No rule looks beyond the end of its own statement, except an `if` for its `else`. So when the tokens
of a program are followed by others, the parser reads the program first and is then where it would
be if it began with the others (`Program.leads`). Of what it has read it keeps the last token, which
it looks at only when nothing is left, and the number of identities given. From there on it goes the
same way as from the start (`exists_parse`), through every error and recovery.

Results:
* `parse_append`: **a program and whatever follows it are parsed one after the other.**
-/

namespace Scriptlet.Grammar

open Filter (atTop)
open Scriptlet.Parser (State)

theorem SameStmts.append {p p' q q' : List Stmt} (h : SameStmts p p') (h' : SameStmts q q') :
    SameStmts (p ++ q) (p' ++ q') := by
  unfold SameStmts at *
  simp only [Stmt.unlabelledAll_eq_map, List.map_append] at *
  rw [h, h']

theorem Program.eq_nil {ts : List Token} {p : List Stmt} (h : Program ts p) (hts : ts = []) :
    p = [] := by
  cases h with
  | noDeclaration => rfl
  | moreDeclarations hd hds =>
    exact absurd (List.append_eq_nil_iff.mp hts).1 (hd.begins.2 rfl)

/-- **After the tokens of a program the parser goes on with what follows**, with its statements in
hand and no error, inside a block or not. -/
theorem Program.leads {ts rest : List Token} {ds : List Stmt} (h : Program ts ds) (b : Bool)
    (hrest : Without .elseKw rest) (s : State) (hs : s.rest = ts ++ rest) :
    ∃ ds' s', SameStmts ds ds' ∧ Reaches s rest s' ∧
      ∀ es u, (∀ᶠ n in atTop, Parser.declarations n b s' = .ok es u) →
        ∀ᶠ n in atTop, Parser.declarations n b s = .ok (ds' ++ es) u := by
  induction ds generalizing ts s with
  | nil =>
    cases h
    exact ⟨[], s, rfl, ⟨hs, rfl⟩, fun _ _ hn => hn⟩
  | cons d ds ih =>
    cases h with
    | @moreDeclarations ts us _ _ hd hds =>
      rw [List.append_assoc] at hs
      obtain ⟨d', s₁, hsame, hreach₁, hdecl⟩ := hd.complete _ (without_else hds hrest) s hs
      obtain ⟨ds', s₂, hsames, hreach₂, hmore⟩ := ih hds s₁ hreach₁.rest
      refine ⟨d' :: ds', s₂, ?_, hreach₁.trans hreach₂, fun es u hes => eventually_of_succ ?_⟩
      · unfold SameStmt at hsame
        unfold SameStmts at hsames ⊢
        simp only [Stmt.unlabelledAll, hsame, hsames]
      · filter_upwards [hdecl, hmore es u hes] with n h₁ h₂
        exact declarations_cons (hd.begins.isOpen hs b) h₁ h₂

/-- From a state without errors the tokens still to read are parsed as they are from the start,
whatever has been read before them. -/
theorem exists_parse (s : State) (hs : s.errors = #[]) (ref : RefId) :
    ∃ ds u, SameStmts (parse s.rest ref).program ds ∧ u.errors = (parse s.rest ref).errors ∧
      ∀ᶠ n in atTop, Parser.declarations n false s = .ok ds u := by
  have more {n : Nat} {ds : List Stmt} {u : State}
      (hn : Parser.declarations n false s = .ok ds u) :
      ∀ᶠ m in atTop, Parser.declarations m false s = .ok ds u := by
    filter_upwards [Filter.eventually_ge_atTop n] with m hle
    rcases (Parser.refines_compatible.statementRules hle).declarations false s with hout | heq
    · rw [hn] at hout
      cases hout
    · exact heq.symm.trans hn
  obtain ⟨last, rest, nextRef, errors⟩ := s
  obtain rfl : errors = #[] := hs
  cases rest with
  | nil => exact ⟨[], ⟨last, [], nextRef, #[]⟩, rfl, rfl, more (n := 1) rfl⟩
  | cons first rest =>
    -- The token read last is not looked at as long as there is another one.
    have hlike : State.Like (.ofLines Eq) ⟨first, first :: rest, ref, #[]⟩
        ⟨last, first :: rest, nextRef, #[]⟩ :=
      ⟨.cons first.like_self (Parser.ahead_ofLines (List.forall₂_same.mpr fun t _ => t.like_self)
        first.like_self), .nil⟩
    obtain ⟨program, t, hp⟩ := Parser.declarations_done (first :: rest) false
      ⟨first, first :: rest, ref, #[]⟩ rfl
    have hr := (Parser.agreeStatements (.ofLines Eq) (Parser.steps (first :: rest))).declarations
      false hlike nofun
    rw [hp] at hr
    rw [parse_of_declarations hp]
    generalize hq : Parser.declarations (Parser.steps (first :: rest)) false
      ⟨last, first :: rest, nextRef, #[]⟩ = r at hr
    cases hr with
    | @ok _ ds _ u hds hu =>
      refine ⟨ds, u, (Stmt.Like.unlabelledAll_eq hds).symm, ?_, more hq⟩
      exact (Array.toList_inj.mp (eq_of_forall₂ (fun _ _ h => h.eq Token.Like.eq) hu.errors)).symm

/-- **A program and whatever follows it are parsed one after the other.** When tokens without an end
among them are parsed without an error, and the tokens that follow do not begin with `else`, the
statements of both are the statements of the one and of the other, up to the identities of
references, and the errors are those of the other, in the same order. -/
theorem parse_append {ts us : List Token} {eof : Token} (hts : NoEnd ts)
    (heof : eof.is .endOfText = true) (hus : Without .elseKw us) (ref ref' ref'' : RefId)
    (h : (parse (ts ++ [eof]) ref).errors = #[]) :
    SameStmts ((parse (ts ++ [eof]) ref).program ++ (parse us ref').program)
        (parse (ts ++ us) ref'').program ∧
      (parse (ts ++ us) ref'').errors = (parse us ref').errors := by
  have hprogram := program_of_parse hts heof ref h
  generalize (parse (ts ++ [eof]) ref).program = p at hprogram ⊢
  generalize htokens : ts ++ us = tokens
  cases tokens with
  | nil =>
    obtain ⟨hnone, rfl⟩ := List.append_eq_nil_iff.mp htokens
    rw [hprogram.eq_nil hnone]
    exact ⟨rfl, rfl⟩
  | cons first rest =>
    obtain ⟨p', s, hp, hreach, hleads⟩ :=
      hprogram.leads false hus ⟨first, first :: rest, ref'', #[]⟩ htokens.symm
    obtain ⟨q, u, hq, herrors, hparse⟩ := exists_parse s hreach.errors ref'
    rw [hreach.rest] at hq herrors
    obtain ⟨n, hn⟩ := (hleads q u hparse).exists
    rw [parse_of_declarations hn]
    exact ⟨hp.append hq, herrors⟩

/-- A declaration, and below it a line that cannot be parsed. -/
theorem parse_append_recovering :
    let ts : List Token :=
      [⟨.symbol .letKw, "let", 1⟩, ⟨.symbol .identifier, "x", 1⟩, ⟨.symbol .semicolon, ";", 1⟩]
    let us : List Token :=
      [⟨.symbol .rightParen, ")", 2⟩, ⟨.symbol .semicolon, ";", 2⟩, ⟨.symbol .identifier, "x", 2⟩,
        ⟨.symbol .semicolon, ";", 2⟩, ⟨.symbol .endOfText, "", 2⟩]
    (parse us 0).errors = #[⟨⟨.symbol .rightParen, ")", 2⟩, .noExpression⟩] ∧
      SameStmts ((parse (ts ++ [⟨.symbol .endOfText, "", 1⟩]) 0).program ++ (parse us 0).program)
        (parse (ts ++ us) 0).program ∧
      (parse (ts ++ us) 0).errors = (parse us 0).errors :=
  ⟨by decide +kernel, parse_append (by simp [NoEnd, Token.is]) (by decide)
    (by simp [Without, Token.is]) 0 0 0 (by decide +kernel)⟩

end Scriptlet.Grammar
