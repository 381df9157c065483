import Scriptlet.Proofs.Grammar.Append
import Scriptlet.Proofs.Parser.Cursor

/-!
# Recovery inside a block

A declaration of a block that fails is dropped, and the block goes on where recovery stops. Recovery
always skips the token at which the error was noticed. When an expression at the end of a block lacks
its semicolon, that token is the brace which closes the block, so the brace is lost: the block goes on
with what follows it, up to the end of the text, and there it fails as well.

* Tokens of an expression never stop recovery (`Derives.skipped`), so it drops a whole expression
  statement; it stops at once before a declaration that begins with a keyword
  (`Program.left_after_skip`).
* What is left of the program is read into the block (`declarations_recovered`), whose closing brace is
  then missing (`block_unclosed`).

Results:
* `unclosed_after_recovery`: **a block whose last expression lacks its semicolon takes everything that
  follows with it**: two errors, and no statement of the program is left.
* `recovery_leaves_block`: so recovery inside a block does not stay inside it.
-/

namespace Scriptlet.Grammar

open Filter (atTop)
open Scriptlet.Parser (State bind_of_ok bind_of_fail)

/-! ## What recovery skips -/

/-- Recovery neither stops at the token nor after it. -/
structure Skipped (t : Token) : Prop where
  inside : t.is .endOfText = false
  semicolon : t.is .semicolon = false
  opener : State.startsStatement t = false

/-- The symbols that stop recovery, before them or after them. -/
def stoppers : List Symbol := .endOfText :: .semicolon :: Parser.openers

theorem skipped_of_is {t : Token} {k : Symbol} (h : t.is k = true)
    (hk : k ∉ stoppers := by decide) : Skipped t := by
  have hno {k' : Symbol} (hk' : k' ∈ stoppers) : t.is k' = false :=
    Token.is_ne h fun e => hk (e ▸ hk')
  refine ⟨hno (by decide), hno (by decide), ?_⟩
  rw [← Bool.not_eq_true, State.startsStatement_iff]
  rintro ⟨k', hk', ht⟩
  rw [hno (.tail _ (.tail _ hk'))] at ht
  cases ht

theorem skipped_of_kind {t : Token} (h : ∀ k, t.kind ≠ .symbol k) : Skipped t := by
  have hno (k : Symbol) : t.is k = false := decide_eq_false (h k)
  refine ⟨hno _, hno _, ?_⟩
  simp [State.startsStatement, hno]

theorem skipped_operator {l : Level} {op : Token} (h : l.operators.any op.is = true) : Skipped op := by
  obtain ⟨k, hk, hop⟩ := List.any_eq_true.mp h
  have hall : ∀ k ∈ l.operators, k ∉ stoppers := by cases l <;> decide
  exact skipped_of_is hop (hall k hk)

/-- The rules of which an expression is made. -/
def Rule.isExpression : Rule → Bool
  | expression | level _ | operand _ | unary | call | primary | arguments => true
  | _ => false

/-- **An expression is skipped as a whole.** -/
theorem Derives.skipped {r : Rule} {ts : List Token} {t : r.Tree} (h : Derives r ts t)
    (hrule : r.isExpression = true) : ∀ t ∈ ts, Skipped t := by
  induction h with
  | assignName _ _ he _ ihl ihv | assignProperty _ he _ ihl ihv =>
    have := skipped_of_is he
    grind [Rule.isExpression]
  | loosest _ ih | single _ ih | tighter _ _ ih | tightest _ ih | bare _ ih | plain _ ih
  | lastArgument _ ih => exact ih rfl
  | join _ ho _ ihl ihr =>
    have := skipped_operator (joins_iff.mp ho).1
    grind [Rule.isExpression]
  | operator ho _ ih =>
    rcases Bool.or_eq_true_iff.mp ho with h | h
    all_goals
      have := skipped_of_is h
      grind [Rule.isExpression]
  | applyNone _ hl hr ih =>
    have := skipped_of_is hl
    have := skipped_of_is hr
    grind [Rule.isExpression]
  | apply _ hl _ _ hr ihc iha =>
    have := skipped_of_is hl
    have := skipped_of_is hr
    grind [Rule.isExpression]
  | get _ hd hn _ ih =>
    have := skipped_of_is hd
    have := skipped_of_is hn
    grind [Rule.isExpression]
  | argument _ hc _ ih ihs =>
    have := skipped_of_is hc
    grind [Rule.isExpression]
  | number h | string h => simpa using skipped_of_kind (by simp [h])
  | falsity h | truth h | null h | undefined h | this _ h | name _ h =>
    simpa using skipped_of_is h
  | super _ hk hd hm =>
    have := skipped_of_is hk
    have := skipped_of_is hd
    have := skipped_of_is hm
    simp [*]
  | group hl _ hr ih =>
    have := skipped_of_is hl
    have := skipped_of_is hr
    grind [Rule.isExpression]
  | new hk _ ih =>
    have := skipped_of_is hk
    grind [Rule.isExpression]
  | _ => cases hrule

/-- Recovery goes through tokens that do not stop it, up to a semicolon and past it. -/
theorem skipFrom_append {last semicolon : Token} {ts rest : List Token} (hts : ∀ t ∈ ts, Skipped t)
    (hlast : last.is .semicolon = false) (hs : semicolon.is .semicolon = true) :
    State.skipFrom last (ts ++ semicolon :: rest) = (semicolon, rest) := by
  induction ts generalizing last with
  | nil =>
    have hend : semicolon.is .endOfText = false := Token.is_ne hs (by decide)
    have hopener : State.startsStatement semicolon = false := by
      rw [← Bool.not_eq_true, State.startsStatement_iff]
      rintro ⟨k, hk, h⟩
      exact absurd (is_unique hs h ▸ hk) (by decide)
    cases rest <;> simp [State.skipFrom, hend, hlast, hopener, hs]
  | cons t ts ih =>
    have ht := hts t List.mem_cons_self
    simp only [List.cons_append, State.skipFrom, ht.inside, hlast, ht.opener, Bool.or_false,
      Bool.false_eq_true, if_false]
    exact ih (fun u hu => hts u (List.mem_cons_of_mem t hu)) ht.semicolon

/-- A declaration begins with a keyword at which recovery stops, or with a brace, or is an expression
and a semicolon. -/
theorem Derives.declaration_cases {ts : List Token} {d : Stmt} (h : Derives .declaration ts d) :
    (∃ t us, ts = t :: us ∧ State.startsStatement t = true) ∨
    (∃ t us, ts = t :: us ∧ t.is .leftBrace = true) ∨
    ∃ us semicolon e, ts = us ++ [semicolon] ∧ Derives .expression us e ∧
      semicolon.is .semicolon = true := by
  have opens {t : Token} {k : Symbol} {us : List Token} (hk : t.is k = true)
      (hmem : k ∈ Parser.openers) :
      ∃ t' us', t :: us = t' :: us' ∧ State.startsStatement t' = true :=
    ⟨t, us, rfl, (State.startsStatement_iff t).mpr ⟨k, hmem, hk⟩⟩
  cases h with
  | classDeclaration hk => exact .inl (opens hk (by decide))
  | functionDeclaration hk => exact .inl (opens hk (by decide))
  | variableDeclaration h =>
    cases h with
    | declare hk | declareInit hk => exact .inl (opens hk (by decide))
  | statement h =>
    cases h with
    | exprStatement h =>
      cases h with
      | evaluate h hs => exact .inr (.inr ⟨_, _, _, rfl, h, hs⟩)
    | forStatement hk | ifThen hk | ifThenElse hk | returnStatement hk | whileStatement hk =>
      exact .inl (opens hk (by decide))
    | blockStatement h =>
      cases h with
      | block hl => exact .inr (.inl ⟨_, _, rfl, hl⟩)

/-- **Recovery leaves a program of a program**, less an expression statement that comes first. -/
theorem Program.left_after_skip {ts : List Token} {ds : List Stmt} (h : Program ts ds)
    (hblock : Without .leftBrace ts) {last eof : Token} (hlast : last.is .semicolon = false)
    (heof : eof.is .endOfText = true) :
    ∃ us es, Program us es ∧ (State.skipFrom last (ts ++ [eof])).2 = us ++ [eof] := by
  cases h with
  | noDeclaration => exact ⟨[], [], .noDeclaration, by simp [State.skipFrom, heof]⟩
  | @moreDeclarations ts us d ds hd hds =>
    rcases hd.declaration_cases with ⟨t, vs, rfl, ht⟩ | ⟨t, vs, rfl, ht⟩ | ⟨vs, semicolon, e, rfl, he, hs⟩
    · exact ⟨_, _, .moreDeclarations hd hds, by simp [State.skipFrom, ht]⟩
    · rw [hblock t rfl] at ht
      cases ht
    · refine ⟨us, ds, hds, ?_⟩
      rw [List.append_assoc, List.append_assoc, List.singleton_append,
        skipFrom_append (he.skipped rfl) hlast hs]

/-! ## What becomes of the block -/

theorem expect_none {k : Symbol} {f : SyntaxFault} {s : State} {t : Token} {rest : List Token}
    (hs : s.rest = t :: rest) (ht : t.is k = false) : Parser.expect k f s = .fail ⟨t, f⟩ s := by
  have hwithout : Without k s.rest := by
    rw [hs]
    rintro _ ⟨⟩
    exact ht
  unfold Parser.expect
  rw [bind_of_ok (accept_none hwithout)]
  simp [Parser.fail, State.peek, hs]

/-- An expression without its semicolon fails at the token that follows. -/
theorem declaration_unclosed {ts rest : List Token} {e : Expr} {t : Token} {s : State}
    (h : Derives .expression ts e) (hs : s.rest = ts ++ t :: rest)
    (ht : t.is .rightBrace = true) : ∃ s', Reaches s (t :: rest) s' ∧
      ∀ᶠ n in atTop, Parser.declaration n s = .fail ⟨t, .unclosedExpression⟩ s' := by
  obtain ⟨e', s', -, hreach, hexpression⟩ := h.complete _ (stops_of_is ht (by decide)) s hs
  have hhead : HeadIn expressionFirst s.rest := hs ▸ (h.begins.append rfl).1
  refine ⟨s', hreach, eventually_of_succ (eventually_of_succ ?_)⟩
  filter_upwards [hexpression] with n hn
  rw [declaration_statement (hhead.mono (by decide)), statement_expression hhead]
  unfold Parser.expressionStatement
  rw [bind_of_ok hn, bind_of_fail (expect_none hreach.rest (Token.is_ne ht (by decide)))]

/-- A declaration has failed, and the others follow where recovery has stopped. -/
theorem declarations_recovered {n : Nat} {b : Bool} {s s' : State} {e : SyntaxError}
    (hopen : (s.atEnd || (b && s.sees .rightBrace)) = false)
    (hd : Parser.declaration n s = .fail e s') :
    Parser.declarations (n + 1) b s = Parser.declarations n b (s'.note e).synchronize := by
  have hrecover : Parser.recover (Parser.declaration n) s = .ok none (s'.note e).synchronize := by
    unfold Parser.recover
    rw [hd]
  conv_lhs => unfold Parser.declarations
  rw [bind_of_ok (show Parser.atEnd s = .ok _ _ from rfl),
    bind_of_ok (show Parser.sees .rightBrace s = .ok _ _ from rfl), hopen]
  simp only [Bool.false_eq_true, if_false]
  rw [bind_of_ok hrecover]

/-- A block that has come to the end of the text fails there, as the declaration it is. -/
theorem block_unclosed {s u : State} {left eof : Token} {rest : List Token} {ds : List Stmt}
    (hs : s.rest = left :: rest) (hl : left.is .leftBrace = true) (hu : u.rest = [eof])
    (heof : eof.is .endOfText = true)
    (h : ∀ᶠ n in atTop, Parser.declarations n true (s.read left rest) = .ok ds u) :
    ∀ᶠ n in atTop, Parser.declaration n s = .fail ⟨eof, .unclosedBlock⟩ u := by
  have hhead : HeadIn statementFirst s.rest := hs ▸ headIn_of_is hl (by decide)
  refine eventually_of_succ (eventually_of_succ (eventually_of_succ ?_))
  filter_upwards [h] with n hn
  rw [declaration_statement hhead, statement_block hs hl]
  refine bind_of_fail ?_
  unfold Parser.block
  rw [bind_of_ok hn, bind_of_fail (expect_none hu (Token.is_ne heof (by decide)))]

/-- **The block goes on behind its closing brace**, with what recovery leaves of the program that
follows, up to the end of the text. -/
theorem goes_on_after_brace {right eof : Token} {body ts rest : List Token} {ds rs : List Stmt}
    {e : Expr} (hbody : Program body ds) (hts : Derives .expression ts e)
    (hr : right.is .rightBrace = true) (hrest : Program rest rs) (hblock : Without .leftBrace rest)
    (heof : eof.is .endOfText = true) (s : State)
    (hs : s.rest = body ++ (ts ++ right :: (rest ++ [eof]))) :
    ∃ es u, u.rest = [eof] ∧ u.errors = s.errors.push ⟨right, .unclosedExpression⟩ ∧
      ∀ᶠ n in atTop, Parser.declarations n true s = .ok es u := by
  have hbegins : Begins .declaration ts :=
    ⟨hts.begins.1.mono (by decide), fun _ => hts.begins.2 rfl⟩
  obtain ⟨ds', s₁, -, hreach₁, hlead⟩ :=
    hbody.leads true ((hbegins.append rfl).1.without (by decide)) s hs
  obtain ⟨s₂, hreach₂, hfails⟩ := declaration_unclosed hts hreach₁.rest hr
  have hlast : right.is .semicolon = false := Token.is_ne hr (by decide)
  obtain ⟨us, es, hus, hskip⟩ := hrest.left_after_skip hblock hlast heof
  -- Where the expression fails, recovery skips the brace before anything else.
  have hsync := State.synchronize_eq (s := s₂.note ⟨right, .unclosedExpression⟩) hreach₂.rest
    (Token.is_ne hr (by decide))
  generalize hs₃ : (s₂.note ⟨right, .unclosedExpression⟩).synchronize = s₃ at hsync
  have hrest₃ : s₃.rest = us ++ [eof] := by
    rw [hsync]
    exact hskip
  have herrors₃ : s₃.errors = s.errors.push ⟨right, .unclosedExpression⟩ := by
    rw [hsync, ← hreach₁.errors, ← hreach₂.errors]
    rfl
  obtain ⟨es', s₄, -, hreach₄, hes⟩ := hus.complete true [eof] ⟨eof, [], rfl, .inl heof⟩ s₃ hrest₃
  refine ⟨ds' ++ es', s₄, hreach₄.rest, hreach₄.errors.trans herrors₃, hlead es' s₄ ?_⟩
  refine eventually_of_succ ?_
  filter_upwards [hfails, hes] with n h₁ h₂
  rw [declarations_recovered (hbegins.isOpen hreach₁.rest true) h₁, hs₃]
  exact h₂

/-- **A block whose last expression lacks its semicolon takes everything that follows with it.** After
declarations, such an expression and the brace that closes the block let there be a program that does
not begin with another block. The parser notes the missing semicolon at the brace and a missing brace at
the end of the text, and returns no statement at all. -/
theorem unclosed_after_recovery {left right eof : Token} {body ts rest : List Token}
    {ds rs : List Stmt} {e : Expr} (hl : left.is .leftBrace = true) (hbody : Program body ds)
    (hts : Derives .expression ts e) (hr : right.is .rightBrace = true) (hrest : Program rest rs)
    (hblock : Without .leftBrace rest) (heof : eof.is .endOfText = true) (ref : RefId) :
    let parsed := parse (left :: (body ++ (ts ++ right :: (rest ++ [eof])))) ref
    parsed.program = [] ∧
      parsed.errors = #[⟨right, .unclosedExpression⟩, ⟨eof, .unclosedBlock⟩] := by
  intro parsed
  let s : State := ⟨left, left :: (body ++ (ts ++ right :: (rest ++ [eof]))), ref, #[]⟩
  obtain ⟨es, u, hu, herrors, hes⟩ :=
    goes_on_after_brace hbody hts hr hrest hblock heof (s.read left _) rfl
  -- At the end of the text the block fails, and nothing is left to recover.
  have hend : (u.note ⟨eof, .unclosedBlock⟩).atEnd = true := by
    unfold State.atEnd
    rw [show (u.note ⟨eof, .unclosedBlock⟩).rest = [eof] from hu]
    exact heof
  have hopen : (s.atEnd || (false && s.sees .rightBrace)) = false :=
    (begins_of_is (r := .declaration) hl (by decide)).isOpen rfl false
  have hdone : ∀ᶠ n in atTop,
      Parser.declarations (n + 2) false s = .ok [] (u.note ⟨eof, .unclosedBlock⟩) := by
    have hfails := block_unclosed (s := s) rfl hl hu heof hes
    filter_upwards [(Filter.tendsto_add_atTop_nat 1).eventually hfails] with n hn
    rw [declarations_recovered hopen hn, State.synchronize_atEnd hend]
    exact declarations_closed (by rw [hend, Bool.true_or])
  obtain ⟨n, hn⟩ := hdone.exists
  have hparse : parsed = _ := parse_of_declarations hn
  rw [hparse]
  refine ⟨rfl, ?_⟩
  show u.errors.push _ = _
  rw [herrors]
  rfl

/-- `{ null }` before `let x;`. -/
def unclosedBlock : List Token :=
  [⟨.symbol .leftBrace, "\x7b", 1⟩, ⟨.symbol .nullKw, "null", 1⟩, ⟨.symbol .rightBrace, "\x7d", 1⟩,
    ⟨.symbol .letKw, "let", 1⟩, ⟨.symbol .identifier, "x", 1⟩, ⟨.symbol .semicolon, ";", 1⟩,
    ⟨.symbol .endOfText, "", 1⟩]

theorem derives_null {t : Token} (h : t.is .nullKw = true) :
    Derives .expression [t] (.literal .null) := by
  have hunary : Derives .unary [t] (.literal .null) := .bare (.plain (.null h))
  have hterm : Derives (.operand .term) [t] (.literal .null) :=
    .tighter .term (.single (.tightest hunary))
  have hequality : Derives (.operand .equality) [t] (.literal .null) :=
    .tighter .equality (.single (.tighter .comparison (.single hterm)))
  exact .loosest (.single (.tighter .or (.single (.tighter .and (.single hequality)))))

/-- The declaration of `x` is lost with the block before it. -/
theorem unclosed_after_recovery_let :
    (parse unclosedBlock 0).program = [] ∧
      (parse unclosedBlock 0).errors =
        #[⟨⟨.symbol .rightBrace, "\x7d", 1⟩, .unclosedExpression⟩,
          ⟨⟨.symbol .endOfText, "", 1⟩, .unclosedBlock⟩] := by
  have hbody : Program [] [] := .noDeclaration
  have hnull : Derives .expression [⟨.symbol .nullKw, "null", 1⟩] (.literal .null) :=
    derives_null rfl
  exact unclosed_after_recovery rfl hbody hnull rfl
    (.moreDeclarations (.variableDeclaration (.declare rfl rfl rfl)) .noDeclaration)
    (without_of_is (k := .letKw) rfl (by decide)) rfl 0

/-- **Recovery inside a block does not stay inside the block**: there is more than the one error at its
closing brace, and the statements behind it are not returned. -/
theorem recovery_leaves_block :
    ¬ ∀ (left right eof : Token) (body ts rest : List Token) (ds rs : List Stmt) (e : Expr)
        (ref : RefId), left.is .leftBrace = true → Program body ds → Derives .expression ts e →
      right.is .rightBrace = true → Program rest rs → Without .elseKw rest →
      eof.is .endOfText = true →
      let parsed := parse (left :: (body ++ (ts ++ right :: (rest ++ [eof])))) ref
      parsed.errors = #[⟨right, .unclosedExpression⟩] ∧
        ∃ before, SameStmts (before ++ rs) parsed.program := by
  intro h
  have hone : (parse unclosedBlock 0).errors =
      #[⟨⟨.symbol .rightBrace, "\x7d", 1⟩, .unclosedExpression⟩] :=
    (h ⟨.symbol .leftBrace, "\x7b", 1⟩ _ ⟨.symbol .endOfText, "", 1⟩ []
      [⟨.symbol .nullKw, "null", 1⟩] ([_, _, _] ++ []) [] _ _ 0 rfl .noDeclaration (derives_null rfl)
      rfl (.moreDeclarations (.variableDeclaration (.declare rfl rfl rfl)) .noDeclaration)
      (without_of_is (k := .letKw) rfl (by decide)) rfl).1
  exact absurd hone (by decide +kernel)

end Scriptlet.Grammar
