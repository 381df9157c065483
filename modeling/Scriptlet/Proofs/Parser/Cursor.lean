import Mathlib.Order.Bounds.Basic
import Scriptlet.Proofs.Parser.Kept
import Scriptlet.Proofs.Parser.Termination

/-!
# Where the parser stands

A parser state stands at a position of the list of tokens (`State.At`): the tokens from there on are
still to be read, and the one before was read last. No rule leaves the list, and none goes past the
end of the text, whatever the tokens are; a list may have no such end, or several.

A declaration that fails is followed by recovery. It stops at the next position where the text ends, a
semicolon stands before or a statement may begin (`Boundary`).

Results:
* `kept_within`: every rule stays between the position it started at and the end of the text.
* `parse_over`: trees are made of tokens of the list, and errors are noticed at them.
* `State.At.synchronize`: **recovery stops at the first boundary** after the token it started at.
* `parse_progresses`: **the parser ends at the first end of the text**, and every declaration that is
  tried, read or not, takes it further.
-/

namespace Scriptlet.Parser

variable {tokens : List Token} {i j p : Nat} {s t : State}

/-! ## Positions -/

/-- The text ends at position `p`: there is no token, or the end of the text. -/
def EndsAt (tokens : List Token) (p : Nat) : Prop := ∀ t ∈ tokens[p]?, t.is .endOfText = true

/-- The symbols that statements begin with. -/
def openers : List Symbol :=
  [.classKw, .constKw, .functionKw, .letKw, .forKw, .ifKw, .whileKw, .returnKw]

/-- A statement may begin at position `p`, as far as recovery can tell. -/
def Boundary (tokens : List Token) (p : Nat) : Prop :=
  EndsAt tokens p ∨ (∃ t ∈ tokens[p - 1]?, t.is .semicolon = true) ∨
    ∃ t ∈ tokens[p]?, ∃ k ∈ openers, t.is k = true

/-- **The parser stands at position `i`.** At the start no token has been read, and the first one
stands for the one read last. -/
structure State.At (tokens : List Token) (i : Nat) (s : State) : Prop where
  le : i ≤ tokens.length
  rest : s.rest = tokens.drop i
  last : tokens[i - 1]? = some s.last

namespace State.At

theorem start (first : Token) (rest : List Token) (ref : RefId) (errors : Array SyntaxError) :
    State.At (first :: rest) 0 ⟨first, first :: rest, ref, errors⟩ := ⟨Nat.zero_le _, rfl, rfl⟩

theorem next {u : Token} {rest : List Token} (h : s.At tokens i) (hs : s.rest = u :: rest) :
    tokens[i]? = some u := by
  rw [← List.head?_drop, ← h.rest, hs]
  rfl

theorem read {u : Token} {rest : List Token} (h : s.At tokens i) (hs : s.rest = u :: rest) :
    (s.read u rest).At tokens (i + 1) := by
  have hu := h.next hs
  refine ⟨(List.getElem?_eq_some_iff.mp hu).1, ?_, hu⟩
  show rest = tokens.drop (i + 1)
  rw [← List.tail_drop, ← h.rest, hs]
  rfl

theorem length_rest (h : s.At tokens i) : s.rest.length = tokens.length - i := by
  rw [h.rest, List.length_drop]

/-- Where nothing is left, the parser stands behind the last token. -/
theorem eq_length (h : s.At tokens i) (hs : s.rest = []) : i = tokens.length := by
  have := h.le
  have := h.length_rest
  rw [hs, List.length_nil] at this
  omega

/-- The next token is looked up at the position, behind the last token at the last one. -/
theorem peek (h : s.At tokens i) : tokens[min i (tokens.length - 1)]? = some s.peek := by
  unfold State.peek
  cases hs : s.rest with
  | nil =>
    have hi := h.eq_length hs
    rw [Nat.min_eq_right (by omega), ← hi]
    exact h.last
  | cons u rest =>
    have hu := h.next hs
    have hlt := (List.getElem?_eq_some_iff.mp hu).1
    rw [Nat.min_eq_left (by omega)]
    exact hu

theorem previous (h : s.At tokens i) :
    tokens[min (i - 1) (tokens.length - 1)]? = some s.last := by
  have := h.le
  rw [Nat.min_eq_left (by omega)]
  exact h.last

theorem atEnd_iff (h : s.At tokens i) : s.atEnd = true ↔ EndsAt tokens i := by
  unfold State.atEnd EndsAt
  cases hs : s.rest with
  | nil =>
    rw [h.eq_length hs, List.getElem?_length]
    exact iff_of_true rfl fun t ht => absurd ht (Option.not_mem_none t)
  | cons u rest =>
    rw [h.next hs]
    simp only [Option.mem_some_iff, forall_eq']

end State.At

/-! ## Recovery -/

theorem State.startsStatement_iff (t : Token) :
    startsStatement t = true ↔ ∃ k ∈ openers, t.is k = true := by
  simp [startsStatement, openers, or_assoc]

/-- The state after tokens have been skipped. -/
def State.skip (s : State) : State :=
  { s with last := (skipFrom s.last s.rest).1, rest := (skipFrom s.last s.rest).2 }

theorem State.synchronize_eq {u : Token} {rest : List Token} (hs : s.rest = u :: rest)
    (hu : u.is .endOfText = false) : s.synchronize = (s.read u rest).skip := by
  unfold State.synchronize
  rw [hs]
  simp only [hu, Bool.false_eq_true, if_false]
  rfl

theorem State.synchronize_atEnd (h : s.atEnd = true) : s.synchronize = s := by
  unfold State.atEnd at h
  unfold State.synchronize
  cases hs : s.rest with
  | nil => rfl
  | cons u rest =>
    rw [hs] at h
    simp only [h, if_true]

namespace State.At

/-- Skipping stops where it stands or goes on, as `skipFrom` decides. -/
theorem boundary_iff {u : Token} {rest : List Token} (h : s.At tokens p) (hs : s.rest = u :: rest) :
    Boundary tokens p ↔
      (u.is .endOfText || s.last.is .semicolon || startsStatement u) = true := by
  unfold Boundary EndsAt
  rw [h.next hs, h.last, Bool.or_eq_true_iff, Bool.or_eq_true_iff, State.startsStatement_iff]
  simp [or_assoc]

/-- Skipping goes to the next boundary, which may be where it starts. -/
theorem skip (h : s.At tokens p) :
    ∃ q, s.skip.At tokens q ∧ IsLeast {q | p ≤ q ∧ Boundary tokens q} q := by
  induction hs : s.rest generalizing s p with
  | nil =>
    have hskip : s.skip = s := by
      unfold State.skip
      rw [hs, skipFrom, ← hs]
    have hend : EndsAt tokens p := h.atEnd_iff.mp (by rw [State.atEnd, hs])
    exact ⟨p, hskip.symm ▸ h, ⟨le_rfl, .inl hend⟩, fun q hq => hq.1⟩
  | cons u rest ih =>
    by_cases hb : Boundary tokens p
    · have hskip : s.skip = s := by
        unfold State.skip
        rw [hs, skipFrom, if_pos ((h.boundary_iff hs).mp hb), ← hs]
      exact ⟨p, hskip.symm ▸ h, ⟨le_rfl, hb⟩, fun q hq => hq.1⟩
    · have hskip : s.skip = (s.read u rest).skip := by
        unfold State.skip
        rw [hs, skipFrom, if_neg (mt (h.boundary_iff hs).mpr hb)]
        rfl
      obtain ⟨q, hat, ⟨hle, hq⟩, hleast⟩ := ih (h.read hs) rfl
      refine ⟨q, hskip ▸ hat, ⟨Nat.le_of_succ_le hle, hq⟩, fun r hr => hleast ⟨?_, hr.2⟩⟩
      exact Nat.lt_of_le_of_ne hr.1 fun e => hb (e ▸ hr.2)

/-- **Recovery stops at the first boundary after the token it started at.** -/
theorem synchronize (h : s.At tokens i) (hs : s.atEnd = false) :
    ∃ p, s.synchronize.At tokens p ∧ IsLeast {p | i < p ∧ Boundary tokens p} p := by
  cases hrest : s.rest with
  | nil =>
    rw [State.atEnd, hrest] at hs
    cases hs
  | cons u rest =>
    have hu : u.is .endOfText = false := by rwa [State.atEnd, hrest] at hs
    rw [State.synchronize_eq hrest hu]
    exact (h.read hrest).skip

end State.At

/-! ## Every rule stays among the tokens -/

/-- The parser stands at a position between two others. -/
def Within (tokens : List Token) (lo hi : Nat) (s : State) : Prop :=
  ∃ i, s.At tokens i ∧ lo ≤ i ∧ i ≤ hi

/-- **No rule goes back, and none goes past an end of the text.** -/
theorem kept_within {lo hi : Nat} (hend : EndsAt tokens hi) :
    Kept (Within tokens lo hi) (· ∈ tokens) := by
  -- Short of `hi`, a position at which the text does not end is no further than the one before it.
  have before {s : State} {i : Nat} (h : s.At tokens i) (hi' : i ≤ hi) (hs : s.atEnd = false) :
      i < hi := by
    refine lt_of_le_of_ne hi' fun e => ?_
    rw [h.atEnd_iff.mpr (e ▸ hend)] at hs
    cases hs
  refine ⟨fun ⟨i, h, _, _⟩ => List.mem_of_getElem? h.peek, ?_, ?_, ?_, ?_⟩
  · rintro s u rest ⟨i, h, hlo, hhi⟩ hs hu
    have hlt := before h hhi (by rw [State.atEnd, hs]; exact hu)
    exact ⟨List.mem_of_getElem? (h.next hs), i + 1, h.read hs, Nat.le_succ_of_le hlo, hlt⟩
  · rintro s e ⟨i, h, hlo, hhi⟩ -
    exact ⟨i, ⟨h.le, h.rest, h.last⟩, hlo, hhi⟩
  · rintro s ⟨i, h, hlo, hhi⟩
    exact ⟨i, ⟨h.le, h.rest, h.last⟩, hlo, hhi⟩
  · rintro s ⟨i, h, hlo, hhi⟩
    cases hs : s.atEnd with
    | true => exact ⟨i, (State.synchronize_atEnd hs).symm ▸ h, hlo, hhi⟩
    | false =>
      obtain ⟨p, hat, ⟨hlt, -⟩, hleast⟩ := h.synchronize hs
      exact ⟨p, hat, (hlo.trans_lt hlt).le, hleast ⟨before h hhi hs, .inl hend⟩⟩

theorem endsAt_length (tokens : List Token) : EndsAt tokens tokens.length := by
  intro t ht
  rw [List.getElem?_length] at ht
  cases ht

/-- **What is parsed is put together from the tokens**, and errors are noticed at them. -/
theorem parse_builds (tokens : List Token) (ref : RefId) {E : Expr → Prop} {S : Stmt → Prop}
    {F : FunctionDecl → Prop} (hE : BuildsExpressions (· ∈ tokens) E)
    (hS : BuildsStatements (· ∈ tokens) E S F) :
    (∀ st ∈ (parse tokens ref).program, S st) ∧ ∀ e ∈ (parse tokens ref).errors, e.token ∈ tokens := by
  cases tokens with
  | nil => exact ⟨List.forall_mem_nil S, fun e he => absurd he (Array.not_mem_empty e)⟩
  | cons first rest =>
    have hK : Kept (Within (first :: rest) 0 (first :: rest).length) (· ∈ first :: rest) :=
      kept_within (endsAt_length _)
    obtain ⟨program, s, h⟩ :=
      declarations_done (first :: rest) false ⟨first, first :: rest, ref, #[]⟩ rfl
    have hkept := (hK.noted.holdStatements hE hS (steps (first :: rest))).declarations false
      ⟨first, first :: rest, ref, #[]⟩ ⟨⟨0, .start first rest ref #[], le_rfl, Nat.zero_le _⟩,
        fun e he => absurd he (Array.not_mem_empty e)⟩
    rw [h] at hkept
    rw [parse_of_declarations h]
    exact ⟨hkept.1, hkept.2.2⟩

/-- **What is parsed is made of the tokens**, and so are the errors. -/
theorem parse_over (tokens : List Token) (ref : RefId) :
    Stmt.OverAll (· ∈ tokens) (parse tokens ref).program ∧
      ∀ e ∈ (parse tokens ref).errors, e.token ∈ tokens :=
  (parse_builds tokens ref (builds_expressions_over _) (builds_statements_over _)).imp_left
    Stmt.overAll_iff.mpr

/-- The first position at which the text ends. -/
def firstEnd (tokens : List Token) : Nat := tokens.findIdx (·.is .endOfText)

theorem isLeast_firstEnd (tokens : List Token) : IsLeast {p | EndsAt tokens p} (firstEnd tokens) := by
  constructor
  · intro t ht
    obtain ⟨hlt, rfl⟩ := List.getElem?_eq_some_iff.mp ht
    exact List.findIdx_getElem (p := fun t : Token => t.is .endOfText)
  · intro p hp
    refine not_lt.mp fun hlt => ?_
    have hlen : p < tokens.length := hlt.trans_le List.findIdx_le_length
    have hnot : tokens[p].is .endOfText = false := List.not_of_lt_findIdx hlt
    rw [hp _ (List.getElem?_eq_getElem hlen)] at hnot
    cases hnot

/-! ## Progress -/

/-- The declarations of a program go on to the end, those of a block to its brace or the end. -/
theorem declarations_atEnd {n : Nat} {b : Bool} {program : List Stmt}
    (h : declarations n b s = .ok program t) : (t.atEnd || (b && t.sees .rightBrace)) = true := by
  induction n generalizing s program with
  | zero => cases h
  | succ n ih =>
    unfold declarations at h
    rw [bind_of_ok (show atEnd s = .ok s.atEnd s from rfl),
      bind_of_ok (show sees .rightBrace s = .ok (s.sees .rightBrace) s from rfl)] at h
    split_ifs at h with hstop
    · cases h
      exact hstop
    · obtain ⟨o, u, -, h⟩ := bind_eq_ok.mp h
      cases o with
      | none => exact ih h
      | some d =>
        obtain ⟨ds, v, hds, h⟩ := bind_eq_ok.mp h
        cases h
        exact ih hds

/-- **A declaration is tried at position `i` of the tokens.** Whether it is read or not, the parser is
further on afterwards; if not, it failed at some position `k` and recovered from there. -/
structure Advances (tokens : List Token) (i n : Nat) (s : State) (o : Option Stmt) (t : State) :
    Prop where
  further : ∃ j, i < j ∧ t.At tokens j
  failed (h : o = none) : ∃ e u k, declaration n s = .fail e u ∧ i ≤ k ∧ u.At tokens k ∧
    t = (u.note e).synchronize

theorem State.At.advances {n : Nat} {o : Option Stmt} (h : s.At tokens i) (hs : s.atEnd = false)
    (hr : recover (declaration n) s = .ok o t) : Advances tokens i n s o t := by
  have hK : Kept (Within tokens i tokens.length) (· ∈ tokens) := kept_within (endsAt_length tokens)
  have hd := (hK.statementRules n).declaration
  have hw : Within tokens i tokens.length s := ⟨i, h, le_rfl, h.le⟩
  refine ⟨?_, fun ho => ?_⟩
  · have ht := hK.recover hd s hw
    rw [hr] at ht
    obtain ⟨-, j, hj, -, -⟩ := ht
    have hlt := shortens_recover n hs hr
    rw [h.length_rest, hj.length_rest] at hlt
    exact ⟨j, by omega, hj⟩
  · have hp := hd s hw
    unfold recover at hr
    cases hq : declaration n s with
    | ok st u =>
      rw [hq, ho] at hr
      cases hr
    | fail e u =>
      rw [hq] at hp hr
      obtain ⟨-, k, hk, hle, -⟩ := hp
      cases hr
      exact ⟨e, u, k, rfl, hle, hk, rfl⟩
    | exhausted =>
      rw [hq] at hr
      cases hr

theorem recover_cases (n : Nat) (s : State) :
    (n < 20 * s.rest.length + 18 ∧ recover (declaration n) s = .exhausted) ∨
      ∃ o t, recover (declaration n) s = .ok o t := by
  cases hr : recover (declaration n) s with
  | ok o t => exact .inr ⟨o, t, rfl⟩
  | fail e t =>
    unfold recover at hr
    split at hr <;> cases hr
  | exhausted =>
    refine .inl ⟨not_le.mp fun hn => ?_, rfl⟩
    exact halts_recover ((enoughForStatements n).declaration _ hn) s le_rfl hr

/-- The parser ends at the first end of the text. -/
theorem parse_ends (first : Token) (rest : List Token) (ref : RefId) :
    ∃ program s, declarations (steps (first :: rest)) false ⟨first, first :: rest, ref, #[]⟩ =
        .ok program s ∧
      parse (first :: rest) ref = ⟨program, s.errors, s.nextRef⟩ ∧
      s.At (first :: rest) (firstEnd (first :: rest)) := by
  obtain ⟨program, s, h⟩ := declarations_done (first :: rest) false ⟨first, first :: rest, ref, #[]⟩ rfl
  refine ⟨program, s, h, parse_of_declarations h, ?_⟩
  obtain ⟨hend, hleast⟩ := isLeast_firstEnd (first :: rest)
  have hK : Kept (Within (first :: rest) 0 (firstEnd (first :: rest))) (· ∈ first :: rest) :=
    kept_within hend
  have hkept := (hK.statementRules (steps (first :: rest))).declarations false
    ⟨first, first :: rest, ref, #[]⟩ ⟨0, .start first rest ref #[], le_rfl, Nat.zero_le _⟩
  rw [h] at hkept
  obtain ⟨-, i, hi, -, hle⟩ := hkept
  have hat : EndsAt (first :: rest) i := by
    refine hi.atEnd_iff.mp ?_
    have := declarations_atEnd h
    rwa [Bool.false_and, Bool.or_false] at this
  rwa [← le_antisymm hle (hleast hat)]

/-- **The parser always ends and always makes progress**, for any list of tokens. It ends at the first
end of the text. Every rule that starts at a position of the list ends at one. There, the token to be
read next and the one read last are looked up at positions inside the list. At the end recovery stays
where it is; anywhere else it stops at the next boundary, and a declaration that is tried takes the
parser further unless it is granted too few steps. -/
theorem parse_progresses (tokens : List Token) (ref : RefId) :
    (tokens = [] → parse tokens ref = ⟨[], #[], ref⟩) ∧
    (∀ first ∈ tokens.head?, ∃ program s,
      declarations (steps tokens) false ⟨first, tokens, ref, #[]⟩ = .ok program s ∧
      parse tokens ref = ⟨program, s.errors, s.nextRef⟩ ∧ s.At tokens (firstEnd tokens)) ∧
    IsLeast {p | EndsAt tokens p} (firstEnd tokens) ∧
    (∀ n, KeepExpressions (Within tokens 0 tokens.length) (· ∈ tokens) n ∧
      KeepStatements (Within tokens 0 tokens.length) (· ∈ tokens) n) ∧
    ∀ i s, s.At tokens i →
      tokens[min i (tokens.length - 1)]? = some s.peek ∧
      tokens[min (i - 1) (tokens.length - 1)]? = some s.last ∧
      (s.atEnd = true ↔ EndsAt tokens i) ∧
      (s.atEnd = true → s.synchronize = s) ∧
      (s.atEnd = false →
        (∃ p, s.synchronize.At tokens p ∧ IsLeast {p | i < p ∧ Boundary tokens p} p) ∧
        ∀ n, (n < 20 * s.rest.length + 18 ∧ recover (declaration n) s = .exhausted) ∨
          ∃ o t, recover (declaration n) s = .ok o t ∧ Advances tokens i n s o t) := by
  refine ⟨fun h => h ▸ rfl, fun first h => ?_, isLeast_firstEnd tokens, fun n => ?_, fun i s h => ?_⟩
  · obtain ⟨rest, rfl⟩ := List.head?_eq_some_iff.mp h
    exact parse_ends first rest ref
  · have hK : Kept (Within tokens 0 tokens.length) (· ∈ tokens) := kept_within (endsAt_length tokens)
    exact ⟨hK.expressionRules n, hK.statementRules n⟩
  · refine ⟨h.peek, h.previous, h.atEnd_iff, State.synchronize_atEnd, fun hs =>
      ⟨h.synchronize hs, fun n => (recover_cases n s).imp_right ?_⟩⟩
    rintro ⟨o, t, hr⟩
    exact ⟨o, t, hr, h.advances hs hr⟩

/-- An expression without its semicolon, the end of the text, and a declaration after it. -/
def cutShort : List Token :=
  [⟨.symbol .nullKw, "null", 1⟩, ⟨.symbol .endOfText, "", 1⟩, ⟨.symbol .letKw, "let", 1⟩,
    ⟨.symbol .identifier, "x", 1⟩, ⟨.symbol .semicolon, ";", 1⟩]

/-- **At the end of the text recovery skips nothing**, though a statement begins right after it: the
declaration at the start of `cutShort` fails at position 1, and the next boundary is at position 2. -/
theorem synchronize_stays_at_end : ∃ first e u p,
    State.At cutShort 0 ⟨first, cutShort, 0, #[]⟩ ∧
    declaration (steps cutShort) ⟨first, cutShort, 0, #[]⟩ = .fail e u ∧ u.At cutShort 1 ∧
    IsLeast {p | 1 < p ∧ Boundary cutShort p} p ∧ ¬ (u.note e).synchronize.At cutShort p := by
  refine ⟨⟨.symbol .nullKw, "null", 1⟩, ⟨⟨.symbol .endOfText, "", 1⟩, .unclosedExpression⟩,
    ⟨⟨.symbol .nullKw, "null", 1⟩, cutShort.drop 1, 0, #[]⟩, 2, .start _ _ _ _, rfl,
    ⟨by decide, rfl, rfl⟩, ⟨⟨by decide, .inr (.inr ?_)⟩, fun p hp => hp.1⟩, fun h => ?_⟩
  · exact ⟨⟨.symbol .letKw, "let", 1⟩, rfl, .letKw, by decide, rfl⟩
  · have hrest : cutShort.drop 1 = cutShort.drop 2 := h.rest
    exact absurd hrest (by decide)

end Scriptlet.Parser
