import Mathlib.Algebra.Ring.Nat
import Scriptlet.Proofs.Lexer.Joined
import Scriptlet.Proofs.Session.Like

/-!
# The parts of a program made of texts

Texts without reports are put below each other (`joined`). The program of the whole is made of parts,
one for each text, and each part is alike to the program of its text: it has the same statements, on
lower lines. The walk over the whole comes to a part with no scope open, as the walk over the text does,
so references are bound at the same distances.

A line of a text answers one line of the whole (`Rows`). The texts may be read with empty lines above
them, as many as one likes; then they are moved, and the whole is not.

Results:
* `exists_parts_parsed`: the syntax of the whole.
* `exists_parts`: **texts without reports make a whole without reports**, part by part.
-/

namespace Scriptlet

open List (Forall₂)
open Scope

/-- The texts below each other. -/
def joined (texts : List String) : String := "\n".intercalate texts

/-- How many lines the texts before one have. -/
def linesBefore (texts : List String) (k : Nat) : Nat := ((texts.take k).map lineCount).sum

/-- The texts, each with empty lines above it. -/
def spaced (above : Nat → Nat) (texts : List String) : List String :=
  texts.mapIdx fun k text => below (above k) text

/-- **The line of a text, with empty lines above it, and the line of the whole that answers it.** -/
def Rows (texts : List String) (above : Nat → Nat) (line line' : Nat) : Prop :=
  ∃ k text m, texts[k]? = some text ∧ 1 ≤ m ∧ m ≤ lineCount text ∧
    line = m + above k ∧ line' = m + linesBefore texts k

/-! ## Reports -/

/-- There is no report about a text without lexical errors, syntax errors and scope errors. -/
theorem reports_eq_nil_iff {source : String} {ref : RefId} :
    (compile source ref).reports = [] ↔
      (lex source).filterMap LexItem.error? = [] ∧
      (parse ((lex source).filterMap LexItem.token?) ref).errors = #[] ∧
      (walkStmts (compile source ref).program {}).errors = #[] := by
  have hparsed : (compile source ref).syntaxReports = [] ↔
      (lex source).filterMap LexItem.error? = [] ∧
      (parse ((lex source).filterMap LexItem.token?) ref).errors = #[] := by
    simp [compile]
  have hscope : (compile source ref).scopeReports = [] ↔
      (walkStmts (compile source ref).program {}).errors = #[] := by
    simp [compile, resolve]
  rw [← and_assoc, ← hparsed, ← hscope]
  unfold Compiled.reports
  by_cases h : (compile source ref).syntaxReports = [] <;> simp [h]

/-! ## Lower lines -/

theorem Token.lowered_lowered (m n : Nat) (ts : List Token) :
    (ts.map (Token.lowered m)).map (Token.lowered n) = ts.map (Token.lowered (m + n)) := by
  rw [List.map_map]
  refine List.map_congr_left fun t _ => ?_
  simp [Token.lowered, Nat.add_assoc]

/-- Tokens are alike to those further down if their lines answer each other. -/
theorem like_lowered (source : String) (b n : Nat) {line : Nat → Nat → Prop}
    (h : ∀ m, 1 ≤ m → m ≤ lineCount source → line (m + b) (m + n)) :
    Forall₂ (Token.Like line) ((lex (below b source)).filterMap LexItem.token?)
      (((lex source).filterMap LexItem.token?).map (Token.lowered n)) := by
  rw [lex_below, LexItem.tokens_lowered, List.forall₂_map_left_iff, List.forall₂_map_right_iff,
    List.forall₂_same]
  intro t ht
  obtain ⟨hle, hge⟩ := line_mem_lines (token_mem_lex ht)
  exact ⟨rfl, rfl, h t.line hle hge⟩

/-- What is alike to nothing is nothing. -/
theorem eq_empty_iff_of_forall₂ {α β : Type} {R : α → β → Prop} {a : Array α} {b : Array β}
    (h : Forall₂ R a.toList b.toList) : a = #[] ↔ b = #[] := by
  rw [← Array.toList_eq_nil_iff, ← Array.toList_eq_nil_iff, ← List.length_eq_zero_iff,
    ← List.length_eq_zero_iff, h.length_eq]

theorem below_zero (text : String) : below 0 text = text := String.empty_append

/-- **Empty lines above a text cause no reports.** -/
theorem reportsOf_below {source : String} (h : reportsOf source = []) (b : Nat) :
    reportsOf (below b source) = [] := by
  obtain ⟨hlex, hparse, hscope⟩ := reports_eq_nil_iff.mp h
  have htokens : Forall₂ (Token.Like fun _ _ => True)
      ((lex (below b source)).filterMap LexItem.token?) ((lex source).filterMap LexItem.token?) := by
    rw [← List.map_id' ((lex source).filterMap LexItem.token?)]
    exact like_lowered source b 0 fun _ _ _ => trivial
  obtain ⟨hprogram, herrors⟩ := parse_like htokens 0 0
  refine reports_eq_nil_iff.mpr ⟨?_, (eq_empty_iff_of_forall₂ herrors).mpr hparse, ?_⟩
  · rw [lex_below]
    exact LexItem.errors_lowered b hlex
  · exact (eq_empty_iff_of_forall₂ (resolve_like hprogram).1).mpr hscope

/-! ## Syntax -/

/-- A program below another one is a program. -/
theorem Grammar.Program.append {ts us : List Token} {p q : List Stmt} (h : Grammar.Program ts p)
    (h' : Grammar.Program us q) : Grammar.Program (ts ++ us) (p ++ q) := by
  induction p generalizing ts with
  | nil =>
    cases h
    exact h'
  | cons d ds ih =>
    cases h with
    | moreDeclarations hd hds =>
      rw [List.append_assoc]
      exact .moreDeclarations hd (ih hds)

/-- **What is read of a text further down.** -/
theorem exists_part {source : String} (h : reportsOf source = []) (n : Nat) :
    ∃ part, Grammar.Program ((Grammar.bodyTokens source).map (Token.lowered n)) part ∧
      ∀ (line : Nat → Nat → Prop) (b : Nat),
        (∀ m, 1 ≤ m → m ≤ lineCount source → line (m + b) (m + n)) → ∀ ref,
        Forall₂ (Stmt.Like (.ofLines line)) (compile (below b source) ref).program part := by
  have hparse := (reports_eq_nil_iff.mp (reportsOf_below h 0)).2.1
  obtain ⟨eof, htokens, hbody, heof⟩ := Grammar.tokens_eq_body source
  refine ⟨(parse (((lex source).filterMap LexItem.token?).map (Token.lowered n)) 0).program, ?_,
    fun line b hline ref => (parse_like (like_lowered source b n hline) ref 0).1⟩
  have hlowered : Forall₂ (Token.Like fun _ _ => True) _ _ :=
    like_lowered source 0 n fun _ _ _ => trivial
  have hnone := (eq_empty_iff_of_forall₂ (parse_like hlowered 0 0).2).mp hparse
  rw [htokens, List.map_append, List.map_singleton] at hnone ⊢
  have hend : (eof.lowered n).is .endOfText = true := heof
  refine Grammar.program_of_parse (fun t ht => ?_) hend 0 hnone
  obtain ⟨u, hu, rfl⟩ := List.mem_map.mp ht
  exact (hbody u hu).inside

theorem joined_cons_cons (text next : String) (texts : List String) :
    joined (text :: next :: texts) = text ++ "\n" ++ joined (next :: texts) :=
  String.intercalate_cons_cons

theorem errors_joined {texts : List String} (h : ∀ text ∈ texts, reportsOf text = []) :
    (lex (joined texts)).filterMap LexItem.error? = [] := by
  induction texts with
  | nil => rfl
  | cons text texts ih =>
    obtain ⟨htext, htexts⟩ := List.forall_mem_cons.mp h
    have hlex := (reports_eq_nil_iff.mp htext).1
    cases texts with
    | nil => exact hlex
    | cons next texts =>
      rw [joined_cons_cons]
      exact errors_append_newline hlex (ih htexts)

theorem linesBefore_succ (text : String) (texts : List String) (k : Nat) :
    linesBefore (text :: texts) (k + 1) = lineCount text + linesBefore texts k := by
  simp [linesBefore]

/-- The program of a text, whatever its identities, is alike to the part. -/
def Reads (line : Nat → Nat → Prop) (text : String) (part : List Stmt) : Prop :=
  ∀ ref, Forall₂ (Stmt.Like (.ofLines line)) (compile text ref).program part

/-- **The tokens of the whole are a program, made of parts.** The whole stands `n` lines further
down, so that what holds of the texts after the first can be used. -/
theorem exists_parts_lowered {texts : List String} (h : ∀ text ∈ texts, reportsOf text = [])
    (n : Nat) :
    ∃ parts : List (List Stmt),
      Grammar.Program ((Grammar.bodyTokens (joined texts)).map (Token.lowered n)) parts.flatten ∧
      ∀ (line : Nat → Nat → Prop) (above : Nat → Nat),
        (∀ k text m, texts[k]? = some text → 1 ≤ m → m ≤ lineCount text →
          line (m + above k) (m + (n + linesBefore texts k))) →
        Forall₂ (Reads line) (spaced above texts) parts := by
  induction texts generalizing n with
  | nil => exact ⟨[], .noDeclaration, fun _ _ _ => .nil⟩
  | cons text texts ih =>
    obtain ⟨htext, htexts⟩ := List.forall_mem_cons.mp h
    obtain ⟨part, hpart, hlike⟩ := exists_part htext n
    obtain ⟨parts, hparts, hlikes⟩ := ih htexts (n + lineCount text)
    refine ⟨part :: parts, ?_, fun line above hline => ?_⟩
    · cases texts with
      | nil =>
        have hprogram := hpart.append hparts
        rwa [show Grammar.bodyTokens (joined []) = [] from rfl, List.map_nil, List.append_nil]
          at hprogram
      | cons next texts =>
        have hlex := (reports_eq_nil_iff.mp htext).1
        rw [joined_cons_cons, bodyTokens_append_newline _ _ hlex, List.map_append,
          Token.lowered_lowered, Nat.add_comm]
        exact hpart.append hparts
    · have hrest := hlikes line (fun k => above (k + 1)) fun k next m hnext hle hge => by
        rw [Nat.add_assoc n, ← linesBefore_succ]
        exact hline (k + 1) next m hnext hle hge
      unfold spaced
      rw [List.mapIdx_cons]
      exact .cons (hlike line (above 0) fun m hle hge => hline 0 text m rfl hle hge) hrest

/-! ## The parts of the whole -/

theorem Reads.congr {line : Nat → Nat → Prop} {text : String} {part part' : List Stmt}
    (h : Reads line text part) (hsame : Grammar.SameStmts part part') : Reads line text part' := by
  intro ref
  refine Stmt.likeAll_of_unlabelled part' ?_
  rw [hsame]
  exact Stmt.Like.unlabelledAll (h ref)

/-- A program that is the same as one made of parts is made of the same parts. -/
theorem exists_same_parts {parts : List (List Stmt)} {program : List Stmt}
    (h : Grammar.SameStmts parts.flatten program) :
    ∃ parts', program = parts'.flatten ∧ Forall₂ Grammar.SameStmts parts parts' := by
  induction parts generalizing program with
  | nil =>
    cases program with
    | nil => exact ⟨[], rfl, .nil⟩
    | cons st ss => cases h
  | cons part parts ih =>
    unfold Grammar.SameStmts at h
    rw [List.flatten_cons, Stmt.unlabelledAll_eq_map, Stmt.unlabelledAll_eq_map, List.map_append,
      List.map_eq_append_iff] at h
    obtain ⟨first, rest, rfl, hfirst, hrest⟩ := h
    rw [← Stmt.unlabelledAll_eq_map, ← Stmt.unlabelledAll_eq_map] at hfirst hrest
    obtain ⟨parts', rfl, hparts⟩ := ih hrest
    exact ⟨first :: parts', rfl, .cons hfirst hparts⟩

theorem forall₂_reads_congr {line : Nat → Nat → Prop} {texts : List String}
    {parts parts' : List (List Stmt)} (h : Forall₂ (Reads line) texts parts)
    (hsame : Forall₂ Grammar.SameStmts parts parts') : Forall₂ (Reads line) texts parts' := by
  induction h generalizing parts' with
  | nil =>
    cases hsame
    exact .nil
  | cons hpart _ ih =>
    cases hsame with
    | cons hfirst hrest => exact .cons (hpart.congr hfirst) (ih hrest)

/-- The whole is parsed without errors, as parts that the texts are alike to. -/
theorem exists_parts_parsed {texts : List String} (h : ∀ text ∈ texts, reportsOf text = []) :
    (parse ((lex (joined texts)).filterMap LexItem.token?) 0).errors = #[] ∧
      ∃ parts : List (List Stmt), (compile (joined texts) 0).program = parts.flatten ∧
        ∀ above, Forall₂ (Reads (Rows texts above)) (spaced above texts) parts := by
  obtain ⟨parts, hprogram, hparts⟩ := exists_parts_lowered h 0
  obtain ⟨eof, htokens, -, heof⟩ := Grammar.tokens_eq_body (joined texts)
  have hzero : (Grammar.bodyTokens (joined texts)).map (Token.lowered 0) =
      Grammar.bodyTokens (joined texts) := List.map_id' _
  rw [hzero] at hprogram
  obtain ⟨herrors, hsame⟩ := Grammar.parse_of_program hprogram heof 0
  rw [← htokens] at herrors hsame
  obtain ⟨parts', hflatten, hsame⟩ := exists_same_parts hsame
  refine ⟨herrors, parts', hflatten, fun above => ?_⟩
  refine forall₂_reads_congr (hparts _ above fun k text m htext hle hge => ?_) hsame
  exact ⟨k, text, m, htext, hle, hge, rfl, by rw [Nat.zero_add]⟩

/-! ## Scopes -/

/-- **The walk comes out of a part as it went in**: outside all scopes, and without errors. -/
theorem outside_walkStmts {line : Nat → Nat → Prop} {text : String} {part : List Stmt} {u : State}
    (hclean : reportsOf text = []) (hpart : Reads line text part) (hu : State.Like line {} u) :
    State.Like line {} (walkStmts part u) := by
  have hwalk : State.Like line (walkStmts (compile text 0).program {}) (walkStmts part u) :=
    like_walkStmts (hpart 0) hu
  have hadvance := advance_walkStmts (compile text 0).program {}
  have hscopes : (walkStmts (compile text 0).program {}).scopes = [] := hadvance.nested.mpr rfl
  refine ⟨hscopes.symm.trans hwalk.scopes, hadvance.function.symm.trans hwalk.function,
    hadvance.classes.symm.trans hwalk.classes, ?_⟩
  have herrors := hwalk.errors
  rwa [(reports_eq_nil_iff.mp hclean).2.2] at herrors

/-- **A text and its part of a program**, over which the walk ends in `T`. -/
structure Part (line : Nat → Nat → Prop) (T : State) (text : String) (part : List Stmt) : Prop where
  clean : reportsOf text = []
  reads : Reads line text part
  walked : ∃ u, State.Like line {} u ∧ Noted (walkStmts part u) T

/-- The walk over parts, one after the other. -/
theorem forall₂_part {line : Nat → Nat → Prop} {texts : List String} {parts : List (List Stmt)}
    {u : State} (hclean : ∀ text ∈ texts, reportsOf text = [])
    (h : Forall₂ (Reads line) texts parts) (hu : State.Like line {} u) :
    State.Like line {} (walkStmts parts.flatten u) ∧
      Forall₂ (Part line (walkStmts parts.flatten u)) texts parts := by
  induction h generalizing u with
  | nil => exact ⟨hu, .nil⟩
  | @cons text part texts parts hpart _ ih =>
    obtain ⟨htext, htexts⟩ := List.forall_mem_cons.mp hclean
    rw [List.flatten_cons, walkStmts_append]
    obtain ⟨hend, hparts⟩ := ih htexts (outside_walkStmts htext hpart hu)
    exact ⟨hend, .cons ⟨htext, hpart, u, hu, (advance_walkStmts _ _).noted⟩ hparts⟩

theorem spaced_zero (texts : List String) : spaced (fun _ => 0) texts = texts := by
  unfold spaced
  refine List.ext_getElem? fun k => ?_
  rw [List.getElem?_mapIdx]
  cases texts[k]? with
  | none => rfl
  | some text => exact congrArg some (below_zero text)

theorem spaced_concat (above : Nat → Nat) (texts : List String) (last : String) :
    spaced above (texts ++ [last]) =
      spaced above texts ++ [below (above texts.length) last] := by
  unfold spaced
  rw [List.mapIdx_concat]

theorem reportsOf_spaced {texts : List String} (h : ∀ text ∈ texts, reportsOf text = [])
    (above : Nat → Nat) : ∀ text ∈ spaced above texts, reportsOf text = [] := by
  intro text htext
  obtain ⟨k, hk, rfl⟩ := List.mem_mapIdx.mp htext
  exact reportsOf_below (h _ (List.getElem_mem hk)) _

/-- **Texts without reports make a whole without reports**, whose program is made of their parts. -/
theorem exists_parts {texts : List String} (h : ∀ text ∈ texts, reportsOf text = []) :
    reportsOf (joined texts) = [] ∧
      ∃ parts : List (List Stmt), (compile (joined texts) 0).program = parts.flatten ∧
        ∀ above, Forall₂ (Part (Rows texts above) (walkStmts parts.flatten {}))
          (spaced above texts) parts := by
  obtain ⟨hparse, parts, hprogram, hparts⟩ := exists_parts_parsed h
  have hwalk (above : Nat → Nat) :=
    forall₂_part (u := {}) (reportsOf_spaced h above) (hparts above) ⟨rfl, rfl, rfl, .nil⟩
  refine ⟨reports_eq_nil_iff.mpr ⟨errors_joined h, hparse, ?_⟩, parts, hprogram,
    fun above => (hwalk above).2⟩
  rw [hprogram]
  exact (eq_empty_iff_of_forall₂ (hwalk fun _ => 0).1.errors).mp rfl

end Scriptlet
