import Scriptlet.Proofs.Parser.Action

/-!
# The parser always ends

`Parser.steps` grants twenty steps for every token and twenty more. No rule goes through more than
nineteen others before it reads a token, so a rule that still has `20 * tokens` steps and its own
share (16 for an expression, 19 for the declarations of a program) never runs out of them. The only
loop whose body might read nothing is the one over declarations; there a declaration that fails is
followed by `synchronize`, which skips at least the token it failed at.

Results:
* `Shortens` (`shortens_declaration`, `shortens_recover`): a declaration, and a failed one with its
  recovery, leave fewer tokens than there were.
* `enoughForExpressions`, `enoughForStatements`: with enough steps no rule is exhausted.
* `declarations_steps`: nor is `parse`, whatever the tokens are.
* `parse_of_declarations`: any number of steps that is enough gives what is parsed.
-/

namespace Scriptlet

/-- The place of a level in the chain from the loosest to the tightest. -/
def Level.rank : Level → Nat
  | or => 0
  | and => 1
  | equality => 2
  | comparison => 3
  | term => 4
  | factor => 5

theorem Level.rank_tighter {l l' : Level} (h : l.tighter = some l') : l'.rank = l.rank + 1 := by
  cases l <;> cases h <;> rfl

theorem Level.rank_le (l : Level) : l.rank ≤ 5 := by
  cases l <;> decide

namespace Parser

variable {α β : Type}

/-! ## Reading tokens -/

theorem acceptIf_cases (q : Token → Bool) (s : State) :
    acceptIf q s = .ok none s ∨
      ∃ t rest, s.rest = t :: rest ∧ q t = true ∧ acceptIf q s = .ok (some t) (s.read t rest) := by
  cases h : s.rest with
  | nil => exact .inl (acceptIf_nil h)
  | cons t rest =>
    rw [acceptIf_cons h]
    cases hq : q t with
    | true => exact .inr ⟨t, rest, rfl, hq, rfl⟩
    | false => exact .inl rfl

theorem expect_cases (k : Symbol) (f : SyntaxFault) (s : State) :
    (∃ e, expect k f s = .fail e s) ∨
      ∃ t rest, s.rest = t :: rest ∧ t.is k = true ∧ expect k f s = .ok t (s.read t rest) := by
  rcases acceptIf_cases (·.is k) s with h | ⟨t, rest, hs, ht, h⟩
  · exact .inl ⟨_, bind_of_ok (p := accept k) h⟩
  · exact .inr ⟨t, rest, hs, ht, bind_of_ok (p := accept k) h⟩

theorem length_read {s : State} {t : Token} {rest : List Token} (h : s.rest = t :: rest) :
    (s.read t rest).rest.length < s.rest.length := by
  rw [h]
  exact Nat.lt_succ_self _

/-- The action only goes forward. -/
def Forward (p : Parser α) : Prop := ∀ s, Grows s (p s)

theorem Forward.length_le {p : Parser α} (h : Forward p) {s s' : State} {a : α}
    (hp : p s = .ok a s') : s'.rest.length ≤ s.rest.length := by
  have := h s
  rw [hp] at this
  exact this.rest.length_le

theorem Forward.seq {p : Parser α} {f : α → Parser β} (hp : Forward p)
    (hf : ∀ a, Forward (f a)) : Forward (p >>= f) :=
  grows_compatible.seq (q := p) (g := f) hp hf

theorem forward_pure (a : α) : Forward (pure a : Parser α) := grows_compatible.pure a

theorem forward_expect (k : Symbol) (f : SyntaxFault) : Forward (expect k f) :=
  grows_compatible.expect k f

theorem forward_expression (n : Nat) : Forward (expression n) :=
  (grows_compatible.expressionRules le_rfl).expression

/-- The rules for statements, each of which only goes forward. -/
theorem forward_statements (n : Nat) : StatementRules (fun s r _ => Grows s r) n n :=
  grows_compatible.statementRules le_rfl

/-! ## Declarations read something -/

/-- If the action succeeds, there are fewer tokens left than before. -/
def Shortens (p : Parser α) : Prop := ∀ s a s', p s = .ok a s' → s'.rest.length < s.rest.length

theorem shortens_expect (k : Symbol) (f : SyntaxFault) : Shortens (expect k f) := by
  intro s a s' h
  rcases expect_cases k f s with ⟨e, he⟩ | ⟨t, rest, hs, -, ht⟩
  · rw [he] at h; cases h
  · rw [ht] at h
    cases h
    exact length_read hs

theorem Shortens.seq {p : Parser α} {f : α → Parser β} (hp : Shortens p)
    (hf : ∀ a, Forward (f a)) : Shortens (p >>= f) := by
  intro s b s' h
  obtain ⟨a, t, ht, hb⟩ := bind_eq_ok.mp h
  exact lt_of_le_of_lt ((hf a).length_le hb) (hp s a t ht)

theorem Forward.seq_shortens {p : Parser α} {f : α → Parser β} (hp : Forward p)
    (hf : ∀ a, Shortens (f a)) : Shortens (p >>= f) := by
  intro s b s' h
  obtain ⟨a, t, ht, hb⟩ := bind_eq_ok.mp h
  exact lt_of_lt_of_le (hf a t b s' hb) (hp.length_le ht)

/-- A choice by the next token: the token is read, or the alternative reads something. -/
theorem shortens_accept {q : Token → Bool} {f : Option Token → Parser β}
    (hsome : ∀ t, Forward (f (some t))) (hnone : Shortens (f none)) :
    Shortens (acceptIf q >>= f) := by
  intro s b s' h
  rcases acceptIf_cases q s with hq | ⟨t, rest, hs, -, hq⟩
  · rw [bind_of_ok hq] at h
    exact hnone s b s' h
  · rw [bind_of_ok hq] at h
    exact lt_of_le_of_lt ((hsome t).length_le h) (length_read hs)

theorem shortens_expressionStatement (n : Nat) : Shortens (expressionStatement n) :=
  (forward_expression n).seq_shortens fun _ =>
    (shortens_expect _ _).seq fun _ => grows_compatible.pure _

theorem shortens_statement : ∀ n, Shortens (statement n)
  | 0 => fun _ _ _ h => by cases h
  | n + 1 => by
    have hR := grows_compatible
    have ih := forward_statements n
    unfold statement
    exact shortens_accept (fun _ => ih.forStatement) <|
      shortens_accept (fun _ => ih.ifStatement) <|
      shortens_accept (fun t => hR.returnStatement le_rfl t) <|
      shortens_accept (fun _ => ih.whileStatement) <|
      shortens_accept (fun _ => hR.seq ih.block fun _ => hR.pure _) <|
      shortens_expressionStatement n

theorem shortens_declaration : ∀ n, Shortens (declaration n)
  | 0 => fun _ _ _ h => by cases h
  | n + 1 => by
    have hR := grows_compatible
    have ih := forward_statements n
    unfold declaration
    exact shortens_accept (fun _ => ih.classDeclaration) <|
      shortens_accept (fun _ => hR.seq (ih.function _) fun _ => hR.pure _) <|
      shortens_accept (fun _ => hR.letDeclaration le_rfl) <|
      shortens_statement n

theorem shortens_function (n : Nat) (form : FunctionForm) : Shortens (function n form) := by
  cases n with
  | zero => exact fun _ _ _ h => by cases h
  | succ n =>
    have hR := grows_compatible
    unfold function
    have body (name : Token) (params : List Token) : Forward (do
        let _ ← expect .rightParen .unclosedParameters
        let _ ← expect .leftBrace (.noFunctionBody form)
        let body ← block n
        return FunctionDecl.mk name params body) :=
      (forward_expect _ _).seq fun _ => (forward_expect _ _).seq fun _ =>
        Forward.seq (forward_statements n).block fun _ => forward_pure _
    refine (shortens_expect _ _).seq fun name => (forward_expect _ _).seq fun _ =>
      Forward.seq (hR.sees _) fun empty => ?_
    cases empty with
    | true => exact (forward_pure _).seq fun params => body name params
    | false => exact Forward.seq (hR.parameters le_rfl 0) fun params => body name params

/-- Synchronizing skips a token, unless it is at the end already. -/
theorem State.length_synchronize (s : State) :
    s.atEnd = true ∨ s.synchronize.rest.length < s.rest.length := by
  cases h : s.rest with
  | nil => left; unfold State.atEnd; rw [h]
  | cons t rest =>
    cases ht : t.is .endOfText with
    | true => left; unfold State.atEnd; rw [h]; exact ht
    | false =>
      right
      unfold State.synchronize
      rw [h]
      simp only [ht, Bool.false_eq_true, if_false]
      exact Nat.lt_succ_of_le (State.skipFrom_suffix t rest).length_le

/-- Away from the end, a state that is at the end has fewer tokens. -/
theorem length_lt_of_atEnd {s t : State} (h : s.Before t) (hs : s.atEnd = false)
    (ht : t.atEnd = true) : t.rest.length < s.rest.length := by
  refine lt_of_le_of_ne h.rest.length_le fun hlen => ?_
  have e := h.rest.eq_of_length hlen
  unfold State.atEnd at hs ht
  rw [e, hs] at ht
  cases ht

theorem shortens_recover (n : Nat) {s s' : State} {o : Option Stmt} (hs : s.atEnd = false)
    (h : recover (declaration n) s = .ok o s') : s'.rest.length < s.rest.length := by
  unfold recover at h
  cases hp : declaration n s with
  | ok stmt t =>
    rw [hp] at h
    cases h
    exact shortens_declaration n s stmt _ hp
  | exhausted => rw [hp] at h; cases h
  | fail e t =>
    rw [hp] at h
    cases h
    have hg : s.Before t := by have := (forward_statements n).declaration s; rwa [hp] at this
    rcases State.length_synchronize (t.note e) with hend | hlt
    · refine lt_of_le_of_lt (State.before_synchronize (t.note e)).rest.length_le ?_
      exact length_lt_of_atEnd (hg.trans (State.before_note t e)) hs hend
    · exact lt_of_lt_of_le hlt hg.rest.length_le

/-! ## Enough steps -/

/-- The action does not run out of steps while at most `k` tokens are left. -/
def Halts (k : Nat) (p : Parser α) : Prop := ∀ s, s.rest.length ≤ k → p s ≠ .exhausted

theorem ok_ne_exhausted (a : α) (s : State) : Result.ok a s ≠ .exhausted := by
  intro h
  cases h

theorem fail_ne_exhausted (e : SyntaxError) (s : State) :
    (Result.fail e s : Result α) ≠ .exhausted := by
  intro h
  cases h

theorem halts_pure (k : Nat) (a : α) : Halts k (pure a : Parser α) :=
  fun s _ => ok_ne_exhausted a s

theorem Halts.seq {k : Nat} {p : Parser α} {f : α → Parser β} (hp : Halts k p)
    (hfwd : Forward p) (hf : ∀ a, Halts k (f a)) : Halts k (p >>= f) := fun s hs =>
  bind_ne_exhausted (hp s hs) fun a t h => hf a t ((hfwd.length_le h).trans hs)

/-- An action that always succeeds. -/
theorem halts_then {k : Nat} {p : Parser α} {f : α → Parser β} (hp : ∀ s, ∃ a t, p s = .ok a t)
    (hfwd : Forward p) (hf : ∀ a, Halts k (f a)) : Halts k (p >>= f) := by
  refine Halts.seq (fun s _ => ?_) hfwd hf
  obtain ⟨a, t, h⟩ := hp s
  rw [h]
  exact ok_ne_exhausted a t

/-- After a token has been read there are fewer of them. -/
theorem halts_accept {k : Nat} {q : Token → Bool} {f : Option Token → Parser β}
    (hsome : ∀ t, ∀ j < k, Halts j (f (some t))) (hnone : Halts k (f none)) :
    Halts k (acceptIf q >>= f) := by
  intro s hs
  rcases acceptIf_cases q s with hq | ⟨t, rest, hr, -, hq⟩
  · rw [bind_of_ok hq]
    exact hnone s hs
  · rw [bind_of_ok hq]
    exact hsome t _ (lt_of_lt_of_le (length_read hr) hs) _ (le_refl _)

theorem halts_expect {k : Nat} {x : Symbol} {e : SyntaxFault} {f : Token → Parser β}
    (hf : ∀ t, ∀ j < k, Halts j (f t)) : Halts k (expect x e >>= f) := by
  intro s hs
  rcases expect_cases x e s with ⟨e, he⟩ | ⟨t, rest, hr, -, ht⟩
  · rw [bind_of_fail he]
    exact fail_ne_exhausted _ s
  · rw [bind_of_ok ht]
    exact hf t _ (lt_of_lt_of_le (length_read hr) hs) _ (le_refl _)

/-- A last token, after which nothing runs. -/
theorem halts_expect_pure (k : Nat) (x : Symbol) (e : SyntaxFault) (g : Token → α) :
    Halts k (expect x e >>= fun t => pure (g t)) :=
  halts_expect fun t j _ => halts_pure j (g t)

theorem halts_optionally {k : Nat} {c : Prop} [Decidable c] {o : Parser Unit} {p : Parser α}
    (ho : ∀ s, ∃ a t, o s = .ok a t) (hfwd : Forward o) (h : Halts k p) :
    Halts k (if c then o >>= fun _ => p else p) := by
  split_ifs
  · exact halts_then ho hfwd fun _ => h
  · exact h

/-- **The steps that each rule for expressions needs while `k` tokens are left.** -/
structure EnoughForExpressions (n : Nat) : Prop where
  expression (k : Nat) : 20 * k + 16 ≤ n → Halts k (expression n)
  level (k : Nat) (l : Level) : 20 * k + 15 ≤ n + 2 * l.rank → Halts k (level n l)
  operand (k : Nat) (l : Level) : 20 * k + 14 ≤ n + 2 * l.rank → Halts k (operand n l)
  more (k : Nat) (l : Level) (e : Expr) : 20 * k + 1 ≤ n → Halts k (more n l e)
  unary (k : Nat) : 20 * k + 3 ≤ n → Halts k (unary n)
  call (k : Nat) : 20 * k + 2 ≤ n → Halts k (call n)
  suffixes (k : Nat) (e : Expr) : 20 * k + 1 ≤ n → Halts k (suffixes n e)
  arguments (k c : Nat) : 20 * k + 17 ≤ n → Halts k (arguments n c)
  primary (k : Nat) : 20 * k + 1 ≤ n → Halts k (primary n)

theorem halts_superAccess (k : Nat) (t : Token) : Halts k (superAccess t) :=
  halts_expect fun _ _ _ => halts_expect fun _ j _ =>
    halts_then (fun _ => ⟨_, _, rfl⟩) grows_compatible.freshRef fun _ => halts_pure j _

theorem halts_primary {n k : Nat} (ih : EnoughForExpressions n) (hk : 20 * k ≤ n) :
    Halts k (primary (n + 1)) := by
  intro s hs
  unfold primary
  cases h : s.rest with
  | nil =>
    dsimp only
    obtain ⟨value, hlast⟩ | hlast := lastLiteral_cases s
    · rw [hlast]
      exact ok_ne_exhausted _ _
    · rw [hlast]
      exact fail_ne_exhausted _ _
  | cons t rest =>
    have hlt : rest.length < k := lt_of_lt_of_le (length_read h) hs
    simp only
    split
    · exact ok_ne_exhausted _ _
    · exact ok_ne_exhausted _ _
    · exact ok_ne_exhausted _ _
    · exact ok_ne_exhausted _ _
    · exact ok_ne_exhausted _ _
    · exact ok_ne_exhausted _ _
    · exact halts_superAccess rest.length t (s.read t rest) (le_refl _)
    · exact ok_ne_exhausted _ _
    · exact ok_ne_exhausted _ _
    · exact Halts.seq (ih.expression rest.length (by omega)) (forward_expression n)
        (fun _ => halts_expect_pure _ _ _ _) (s.read t rest) (le_refl _)
    · exact ih.call rest.length (by omega) (s.read t rest) (le_refl _)
    · exact fail_ne_exhausted _ _

theorem halts_suffixes {n k : Nat} (ih : EnoughForExpressions n) (hk : 20 * k ≤ n) (e : Expr) :
    Halts k (suffixes (n + 1) e) := by
  have hR := grows_compatible
  have rules := hR.expressionRules (le_refl n)
  unfold suffixes
  refine halts_accept (fun _ j hj => ?_) (halts_accept (fun _ j hj => ?_) (halts_pure k e))
  · refine halts_then (fun _ => ⟨_, _, rfl⟩) (hR.sees _) fun empty => ?_
    cases empty with
    | true =>
      exact (halts_pure j []).seq (hR.pure _) fun _ => halts_expect fun _ i hi =>
        ih.suffixes i _ (by omega)
    | false =>
      exact (ih.arguments j 0 (by omega)).seq (rules.arguments 0) fun _ =>
        halts_expect fun _ i hi => ih.suffixes i _ (by omega)
  · refine halts_expect fun name i hi => ?_
    exact halts_optionally (fun _ => ⟨_, _, rfl⟩) (hR.report _ _) (ih.suffixes i _ (by omega))

theorem halts_expression {n k : Nat} (ih : EnoughForExpressions n) (hk : 20 * k + 15 ≤ n) :
    Halts k (expression (n + 1)) := by
  have hR := grows_compatible
  have rules := hR.expressionRules (le_refl n)
  unfold expression
  refine (ih.level k .or (by simpa [Level.rank] using hk)).seq (rules.level _) fun target =>
    halts_accept (fun _ j hj => ?_) (halts_pure k target)
  refine (ih.expression j (by omega)).seq rules.expression fun value => ?_
  cases target
  case var => exact halts_then (fun _ => ⟨_, _, rfl⟩) hR.freshRef fun _ => halts_pure j _
  case get => exact halts_pure j _
  all_goals exact halts_then (fun _ => ⟨_, _, rfl⟩) (hR.report _ _) fun _ => halts_pure j _

/-- **With enough steps no rule for expressions is exhausted.** -/
theorem enoughForExpressions : ∀ n, EnoughForExpressions n
  | 0 =>
    { expression := fun k h => absurd h (by omega)
      level := fun k l h => absurd h (by have := l.rank_le; omega)
      operand := fun k l h => absurd h (by have := l.rank_le; omega)
      more := fun k l e h => absurd h (by omega)
      unary := fun k h => absurd h (by omega)
      call := fun k h => absurd h (by omega)
      suffixes := fun k e h => absurd h (by omega)
      arguments := fun k c h => absurd h (by omega)
      primary := fun k h => absurd h (by omega) }
  | n + 1 => by
    have ih := enoughForExpressions n
    have hR := grows_compatible
    have rules := hR.expressionRules (le_refl n)
    refine ⟨fun k h => halts_expression ih (by omega), fun k l h => ?_, fun k l h => ?_,
      fun k l e h => ?_, fun k h => ?_, fun k h => ?_, fun k e h => halts_suffixes ih (by omega) e,
      fun k c h => ?_, fun k h => halts_primary ih (by omega)⟩
    · unfold level
      have := l.rank_le
      exact (ih.operand k l (by omega)).seq (rules.operand l) fun left =>
        ih.more k l left (by omega)
    · unfold operand
      cases hl : l.tighter with
      | some l' => exact ih.level k l' (by rw [Level.rank_tighter hl]; omega)
      | none =>
        have hr : l.rank = 5 := by cases l <;> simp_all [Level.tighter, Level.rank]
        exact ih.unary k (by omega)
    · unfold more
      refine halts_accept (fun op j hj => ?_) (halts_pure k e)
      exact (ih.operand j l (by omega)).seq (rules.operand l) fun right => ih.more j l _ (by omega)
    · unfold unary
      refine halts_accept (fun op j hj => ?_) (ih.call k (by omega))
      exact (ih.unary j (by omega)).seq rules.unary fun _ => halts_pure j _
    · unfold call
      exact (ih.primary k (by omega)).seq rules.primary fun callee =>
        ih.suffixes k callee (by omega)
    · unfold arguments
      refine halts_optionally (fun _ => ⟨_, _, rfl⟩) (hR.reportHere _)
        ((ih.expression k (by omega)).seq rules.expression fun arg => ?_)
      refine halts_accept (fun _ j hj => ?_) (halts_pure k _)
      exact (ih.arguments j _ (by omega)).seq (rules.arguments _) fun _ => halts_pure j _

theorem halts_parameters : ∀ {n k : Nat} (c : Nat), 20 * k + 1 ≤ n → Halts k (parameters n c)
  | 0, _, _, h => absurd h (by omega)
  | n + 1, k, c, h => by
    have hR := grows_compatible
    unfold parameters
    refine halts_optionally (fun _ => ⟨_, _, rfl⟩) (hR.reportHere _)
      (halts_expect fun param j hj => halts_accept (fun _ i hi => ?_) (halts_pure j _))
    exact (halts_parameters (c + 1) (by omega)).seq (hR.parameters le_rfl _) fun _ =>
      halts_pure i _

theorem halts_expressionUnless {n k : Nat} (x : Symbol) (h : 20 * k + 16 ≤ n) :
    Halts k (expressionUnless n x) := by
  unfold expressionUnless
  refine halts_then (fun _ => ⟨_, _, rfl⟩) (grows_compatible.sees _) fun seen => ?_
  cases seen with
  | true => exact halts_pure k none
  | false =>
    exact ((enoughForExpressions n).expression k h).seq (forward_expression n) fun _ =>
      halts_pure k _

theorem halts_letDeclaration {n k : Nat} (h : 20 * k + 16 ≤ n) : Halts k (letDeclaration n) := by
  have hR := grows_compatible
  unfold letDeclaration
  refine halts_expect fun name j hj => halts_accept (fun _ i hi => ?_) ?_
  · have he : Halts i (expression n) := (enoughForExpressions n).expression i (by omega)
    exact (he.seq (forward_expression n) fun _ => halts_pure i _).seq
      ((forward_expression n).seq fun _ => forward_pure _) fun _ => halts_expect_pure i _ _ _
  · exact (halts_pure j none).seq (hR.pure _) fun _ => halts_expect_pure j _ _ _

theorem halts_expressionStatement {n k : Nat} (h : 20 * k + 16 ≤ n) :
    Halts k (expressionStatement n) :=
  ((enoughForExpressions n).expression k h).seq (forward_expression n) fun _ =>
    halts_expect_pure k _ _ _

theorem halts_returnStatement {n k : Nat} (t : Token) (h : 20 * k + 16 ≤ n) :
    Halts k (returnStatement n t) :=
  (halts_expressionUnless _ h).seq (grows_compatible.expressionUnless le_rfl _) fun _ =>
    halts_expect_pure k _ _ _

theorem halts_forInit {n k : Nat} (h : 20 * k + 16 ≤ n) : Halts k (forInit n) := by
  have hR := grows_compatible
  unfold forInit
  refine halts_accept (fun _ j _ => halts_pure j none) (halts_accept (fun _ j hj => ?_) ?_)
  · exact (halts_letDeclaration (by omega)).seq (hR.letDeclaration le_rfl) fun _ => halts_pure j _
  · exact (halts_expressionStatement h).seq (hR.expressionStatement le_rfl) fun _ =>
      halts_pure k _

theorem halts_nameAfter (k : Nat) (x : Symbol) (f : SyntaxFault) : Halts k (nameAfter x f) :=
  halts_accept (fun _ j _ => halts_expect_pure j _ _ _) (halts_pure k none)

theorem halts_superclass (k : Nat) : Halts k superclass := by
  unfold superclass
  refine (halts_nameAfter k _ _).seq (grows_compatible.nameAfter _ _) fun name => ?_
  cases name with
  | some _ =>
    exact halts_then (fun _ => ⟨_, _, rfl⟩) grows_compatible.freshRef fun _ => halts_pure k _
  | none => exact halts_pure k none

/-- **The steps that each rule for statements needs while `k` tokens are left.** -/
structure EnoughForStatements (n : Nat) : Prop where
  declarations (k : Nat) (b : Bool) : 20 * k + 19 ≤ n → Halts k (declarations n b)
  declaration (k : Nat) : 20 * k + 18 ≤ n → Halts k (declaration n)
  classDeclaration (k : Nat) : 20 * k + 1 ≤ n → Halts k (classDeclaration n)
  methods (k : Nat) : 20 * k + 2 ≤ n → Halts k (methods n)
  function (k : Nat) (form : FunctionForm) : 20 * k + 1 ≤ n → Halts k (function n form)
  block (k : Nat) : 20 * k + 20 ≤ n → Halts k (block n)
  statement (k : Nat) : 20 * k + 17 ≤ n → Halts k (statement n)
  forStatement (k : Nat) : 20 * k + 1 ≤ n → Halts k (forStatement n)
  ifStatement (k : Nat) : 20 * k + 1 ≤ n → Halts k (ifStatement n)
  whileStatement (k : Nat) : 20 * k + 1 ≤ n → Halts k (whileStatement n)

theorem halts_recover {n k : Nat} (h : Halts k (declaration n)) :
    Halts k (recover (declaration n)) := by
  intro s hs
  unfold recover
  cases hp : declaration n s with
  | ok a t => exact ok_ne_exhausted _ t
  | fail e t => exact ok_ne_exhausted _ _
  | exhausted => exact absurd hp (h s hs)

/-- The loop over declarations goes on with fewer tokens each time. -/
theorem halts_declarations {n k : Nat} (ih : EnoughForStatements n) (hk : 20 * k + 18 ≤ n)
    (b : Bool) : Halts k (declarations (n + 1) b) := by
  intro s hs
  unfold declarations
  refine bind_ne_exhausted (ok_ne_exhausted _ s) fun ended t ht => ?_
  cases ht
  refine bind_ne_exhausted (ok_ne_exhausted _ s) fun closed t ht => ?_
  cases ht
  split_ifs with hc
  · exact ok_ne_exhausted _ s
  have hend : s.atEnd = false := by
    cases h : s.atEnd with
    | true => simp [h] at hc
    | false => rfl
  refine bind_ne_exhausted (halts_recover (ih.declaration k hk) s hs) fun o t ht => ?_
  have hlt := shortens_recover n hend ht
  have hrec : Halts t.rest.length (declarations n b) := ih.declarations _ b (by omega)
  cases o with
  | some stmt =>
    exact bind_ne_exhausted (hrec t (le_refl _)) fun _ v _ => ok_ne_exhausted _ v
  | none => exact hrec t (le_refl _)

theorem halts_function {n k : Nat} (ih : EnoughForStatements n) (hk : 20 * k ≤ n)
    (form : FunctionForm) : Halts k (function (n + 1) form) := by
  have hR := grows_compatible
  have rules := forward_statements n
  have body {j : Nat} (hj : j < k) (name : Token) (params : List Token) :
      Halts j (do
        let body ← block n
        return FunctionDecl.mk name params body) :=
    (ih.block j (by omega)).seq rules.block fun _ => halts_pure j _
  unfold function
  refine halts_expect fun name a ha => halts_expect fun _ j hj =>
    halts_then (fun _ => ⟨_, _, rfl⟩) (hR.sees _) fun empty => ?_
  cases empty with
  | true =>
    exact (halts_pure j []).seq (hR.pure _) fun params => halts_expect fun _ b hb =>
      halts_expect fun _ c hc => body (by omega) name params
  | false =>
    exact (halts_parameters 0 (by omega)).seq (hR.parameters le_rfl 0) fun params =>
      halts_expect fun _ b hb => halts_expect fun _ c hc => body (by omega) name params

theorem halts_forStatement {n k : Nat} (ih : EnoughForStatements n) (hk : 20 * k ≤ n) :
    Halts k (forStatement (n + 1)) := by
  have hR := grows_compatible
  unfold forStatement
  refine halts_expect fun _ a ha => ?_
  refine (halts_forInit (by omega)).seq (hR.forInit le_rfl) fun init => ?_
  refine (halts_expressionUnless _ (by omega)).seq (hR.expressionUnless le_rfl _) fun cond => ?_
  refine halts_expect fun _ b hb => ?_
  refine (halts_expressionUnless _ (by omega)).seq (hR.expressionUnless le_rfl _) fun step => ?_
  refine halts_expect fun _ c hc => ?_
  exact (ih.statement c (by omega)).seq (forward_statements n).statement fun body => halts_pure c _

theorem halts_ifStatement {n k : Nat} (ih : EnoughForStatements n) (hk : 20 * k ≤ n) :
    Halts k (ifStatement (n + 1)) := by
  have rules := forward_statements n
  unfold ifStatement
  refine halts_expect fun _ a ha => ?_
  refine ((enoughForExpressions n).expression a (by omega)).seq (forward_expression n) fun _ => ?_
  refine halts_expect fun _ b hb => (ih.statement b (by omega)).seq rules.statement fun _ => ?_
  refine halts_accept (fun _ c hc => ?_) (halts_pure b _)
  exact (ih.statement c (by omega)).seq rules.statement fun _ => halts_pure c _

/-- **With enough steps no rule for statements is exhausted.** -/
theorem enoughForStatements : ∀ n, EnoughForStatements n
  | 0 =>
    { declarations := fun k b h => absurd h (by omega)
      declaration := fun k h => absurd h (by omega)
      classDeclaration := fun k h => absurd h (by omega)
      methods := fun k h => absurd h (by omega)
      function := fun k form h => absurd h (by omega)
      block := fun k h => absurd h (by omega)
      statement := fun k h => absurd h (by omega)
      forStatement := fun k h => absurd h (by omega)
      ifStatement := fun k h => absurd h (by omega)
      whileStatement := fun k h => absurd h (by omega) }
  | n + 1 => by
    have ih := enoughForStatements n
    have hR := grows_compatible
    have rules := forward_statements n
    have expr := enoughForExpressions n
    refine ⟨fun k b h => halts_declarations ih (by omega) b, fun k h => ?_, fun k h => ?_,
      fun k h => ?_, fun k form h => halts_function ih (by omega) form, fun k h => ?_,
      fun k h => ?_, fun k h => halts_forStatement ih (by omega),
      fun k h => halts_ifStatement ih (by omega), fun k h => ?_⟩
    · unfold declaration
      refine halts_accept (fun _ j hj => ih.classDeclaration j (by omega)) ?_
      refine halts_accept (fun _ j hj => ?_) ?_
      · exact (ih.function j _ (by omega)).seq (rules.function _) fun _ => halts_pure j _
      · exact halts_accept (fun _ j hj => halts_letDeclaration (by omega))
          (ih.statement k (by omega))
    · unfold classDeclaration
      refine halts_expect fun name a ha => (halts_superclass a).seq hR.superclass fun _ => ?_
      refine (halts_nameAfter a _ _).seq (hR.nameAfter _ _) fun _ => halts_expect fun _ b hb => ?_
      exact (ih.methods b (by omega)).seq rules.methods fun _ => halts_expect_pure b _ _ _
    · unfold methods
      refine halts_then (fun _ => ⟨_, _, rfl⟩) (hR.sees _) fun closed =>
        halts_then (fun _ => ⟨_, _, rfl⟩) hR.atEnd fun ended => ?_
      split_ifs
      · exact halts_pure k []
      · refine fun s hs => bind_ne_exhausted (ih.function k _ (by omega) s hs) fun d t ht => ?_
        have hle := Forward.length_le (rules.function _) ht
        have hlt := shortens_function n _ s d t ht
        exact ((ih.methods _ (by omega)).seq rules.methods fun _ => halts_pure _ _) t (le_refl _)
    · unfold block
      exact (ih.declarations k true (by omega)).seq (rules.declarations true) fun _ =>
        halts_expect_pure k _ _ _
    · unfold statement
      refine halts_accept (fun _ j hj => ih.forStatement j (by omega)) ?_
      refine halts_accept (fun _ j hj => ih.ifStatement j (by omega)) ?_
      refine halts_accept (fun t j hj => halts_returnStatement t (by omega)) ?_
      refine halts_accept (fun _ j hj => ih.whileStatement j (by omega)) ?_
      refine halts_accept (fun _ j hj => ?_) (halts_expressionStatement (by omega))
      exact (ih.block j (by omega)).seq rules.block fun _ => halts_pure j _
    · unfold whileStatement
      refine halts_expect fun _ a ha => (expr.expression a (by omega)).seq (forward_expression n)
        fun _ => halts_expect fun _ b hb => ?_
      exact (ih.statement b (by omega)).seq rules.statement fun _ => halts_pure b _

/-- **The parser never runs out of the steps it is granted.** -/
theorem declarations_steps (tokens : List Token) (b : Bool) (s : State) (h : s.rest = tokens) :
    declarations (steps tokens) b s ≠ .exhausted := by
  refine (enoughForStatements _).declarations tokens.length b ?_ s (by rw [h])
  unfold steps
  omega

theorem declarations_ne_fail (n : Nat) (b : Bool) (s : State) (e : SyntaxError) (t : State) :
    declarations n b s ≠ .fail e t := by
  induction n generalizing s t with
  | zero => exact nofun
  | succ n ih =>
    intro h
    unfold declarations at h
    rw [bind_of_ok (show atEnd s = .ok s.atEnd s from rfl),
      bind_of_ok (show sees .rightBrace s = .ok (s.sees .rightBrace) s from rfl)] at h
    split_ifs at h
    · cases h
    · -- Neither the attempt at a declaration nor what follows fails.
      rcases bind_eq_fail.mp h with h | ⟨o, u, -, h⟩
      · unfold recover at h
        split at h <;> cases h
      · cases o with
        | none => exact ih _ _ h
        | some d =>
          rcases bind_eq_fail.mp h with h | ⟨ds, v, -, h⟩
          · exact ih _ _ h
          · cases h

/-- **The parser comes to an end**, with all that it could make of the tokens. -/
theorem declarations_done (tokens : List Token) (b : Bool) (s : State) (h : s.rest = tokens) :
    ∃ program t, declarations (steps tokens) b s = .ok program t := by
  cases hp : declarations (steps tokens) b s with
  | exhausted => exact absurd hp (declarations_steps tokens b s h)
  | fail e t => exact absurd hp (declarations_ne_fail _ _ _ _ _)
  | ok program t => exact ⟨program, t, rfl⟩

end Parser

/-- Any number of steps that is enough gives what is parsed. -/
theorem parse_of_declarations {first : Token} {rest : List Token} {ref : RefId} {n : Nat}
    {program : List Stmt} {s : Parser.State}
    (h : Parser.declarations n false ⟨first, first :: rest, ref, #[]⟩ = .ok program s) :
    parse (first :: rest) ref = ⟨program, s.errors, s.nextRef⟩ := by
  obtain ⟨program', s', hp⟩ := Parser.declarations_done (first :: rest) false
    ⟨first, first :: rest, ref, #[]⟩ rfl
  unfold parse
  simp only [hp]
  -- The larger number of steps ends as the smaller one does.
  have hsame : Parser.Result.ok program s = .ok program' s' := by
    rw [← h, ← hp]
    rcases Nat.le_total n (Parser.steps (first :: rest)) with hle | hle
    · rcases (Parser.refines_compatible.statementRules hle).declarations false
          ⟨first, first :: rest, ref, #[]⟩ with hout | heq
      · rw [h] at hout
        cases hout
      · exact heq
    · rcases (Parser.refines_compatible.statementRules hle).declarations false
          ⟨first, first :: rest, ref, #[]⟩ with hout | heq
      · rw [hp] at hout
        cases hout
      · exact heq.symm
  cases hsame
  rfl

end Scriptlet
