import Mathlib.Data.List.Infix
import Scriptlet.Syntax.Parser.Statement

/-!
# Relations that all parsing rules respect

The rules of the parser are built from a few actions (read a token, note an error, take a fresh
identity) and one sequencing. A relation between a state and what two actions make of it that these
respect (`Compatible`) therefore holds between each rule granted `n` steps and the same rule granted
at least as many.

Results:
* `Compatible.expressionRules`, `Compatible.statementRules`: the rules respect every compatible
  relation.
* `Grows` (`grows_compatible`): a parser only ever shortens the tokens before it, adds errors and
  takes identities.
* `Refines` (`refines_compatible`): a rule that ends within its steps ends the same way when it is
  granted more.
-/

namespace Scriptlet

theorem Token.is_ne {t : Token} {k k' : Symbol} (h : t.is k = true) (hk : k ≠ k') : t.is k' = false := by
  unfold Token.is at h ⊢
  rw [decide_eq_true_iff] at h
  rw [decide_eq_false_iff_not, h]
  exact fun e => hk (TokenKind.symbol.inj e)

theorem Level.operator_is {l : Level} {t : Token} (h : l.operators.any t.is = true) :
    ∃ k ≠ Symbol.endOfText, t.is k = true := by
  obtain ⟨k, hk, ht⟩ := List.any_eq_true.mp h
  have hall : ∀ k ∈ l.operators, k ≠ .endOfText := by cases l <;> decide
  exact ⟨k, hall k hk, ht⟩

theorem Level.operator_ne_end {l : Level} {t : Token} (h : l.operators.any t.is = true) :
    t.is .endOfText = false := by
  obtain ⟨k, hk, ht⟩ := operator_is h
  exact Token.is_ne ht hk

namespace Parser

/-! ## Sequencing -/

section Sequencing

variable {α β : Type} {p : Parser α} {f : α → Parser β} {s s' : State} {a : α} {b : β}

theorem bind_of_ok (h : p s = .ok a s') : (p >>= f) s = f a s' := by
  show Parser.bind p f s = _
  simp only [Parser.bind, h]

theorem bind_of_fail {e : SyntaxError} (h : p s = .fail e s') : (p >>= f) s = .fail e s' := by
  show Parser.bind p f s = _
  simp only [Parser.bind, h]

theorem bind_of_exhausted (h : p s = .exhausted) : (p >>= f) s = .exhausted := by
  show Parser.bind p f s = _
  simp only [Parser.bind, h]

theorem bind_eq_ok :
    (p >>= f) s = .ok b s' ↔ ∃ a t, p s = .ok a t ∧ f a t = .ok b s' := by
  cases h : p s with
  | ok a t => simp only [bind_of_ok h, Result.ok.injEq, ↓existsAndEq, true_and]
  | fail e t => simp only [bind_of_fail h, reduceCtorEq, false_and, exists_false]
  | exhausted => simp only [bind_of_exhausted h, reduceCtorEq, false_and, exists_false]

theorem bind_eq_fail {e : SyntaxError} :
    (p >>= f) s = .fail e s' ↔
      p s = .fail e s' ∨ ∃ a t, p s = .ok a t ∧ f a t = .fail e s' := by
  cases h : p s with
  | ok a t =>
    simp only [bind_of_ok h, Result.ok.injEq, ↓existsAndEq, true_and, reduceCtorEq, false_or]
  | fail e' t =>
    simp only [bind_of_fail h, Result.fail.injEq, reduceCtorEq, false_and, exists_false, or_false]
  | exhausted =>
    simp only [bind_of_exhausted h, reduceCtorEq, false_and, exists_false, or_false]

theorem bind_ne_exhausted (hp : p s ≠ .exhausted)
    (hf : ∀ a t, p s = .ok a t → f a t ≠ .exhausted) : (p >>= f) s ≠ .exhausted := by
  cases h : p s with
  | ok a t => rw [bind_of_ok h]; exact hf a t h
  | fail e t => simp only [bind_of_fail h, ne_eq, reduceCtorEq, not_false_eq_true]
  | exhausted => exact absurd h hp

theorem map_eq_ok {g : α → β} : (g <$> p) s = .ok b s' ↔ ∃ a, p s = .ok a s' ∧ b = g a := by
  rw [show g <$> p = p >>= fun a => pure (g a) from rfl, bind_eq_ok]
  constructor
  · rintro ⟨a, t, h, hb⟩
    cases hb
    exact ⟨a, h, rfl⟩
  · rintro ⟨a, h, rfl⟩
    exact ⟨a, s', h, rfl⟩

end Sequencing

/-- The state after the next token has been read. -/
def State.read (s : State) (t : Token) (rest : List Token) : State := { s with last := t, rest }

/-- The state after an identity has been taken. -/
def State.take (s : State) : State := { s with nextRef := s.nextRef + 1 }

theorem acceptIf_cons {q : Token → Bool} {s : State} {t : Token} {rest : List Token}
    (h : s.rest = t :: rest) :
    acceptIf q s = if q t then .ok (some t) (s.read t rest) else .ok none s := by
  unfold acceptIf
  rw [h]
  rfl

theorem acceptIf_nil {q : Token → Bool} {s : State} (h : s.rest = []) :
    acceptIf q s = .ok none s := by
  unfold acceptIf
  rw [h]

/-- Where no token is left, a literal is read once more, and anything else is no expression. -/
theorem lastLiteral_cases (s : State) :
    (∃ value, lastLiteral s = .ok (.literal value) s) ∨ lastLiteral s = fail .noExpression s := by
  unfold lastLiteral
  split
  · exact .inl ⟨_, rfl⟩
  · exact .inl ⟨_, rfl⟩
  · exact .inr rfl

/-! ## Compatible relations -/

/-- A relation between a state and two results of actions that start there. -/
abbrev Relates := ∀ {α : Type}, State → Result α → Result α → Prop

/-- **The relation is respected by every action**: by those that do nothing, by whatever follows a
token read, an error noted or an identity taken, by sequencing and by recovery. An action without
steps is related to all. -/
structure Compatible (R : Relates) : Prop where
  exhausted {α : Type} (s : State) (r : Result α) : R s .exhausted r
  done {α : Type} (s : State) (a : α) : R s (.ok a s) (.ok a s)
  fail {α : Type} (s : State) (e : SyntaxError) : R (α := α) s (.fail e s) (.fail e s)
  read {α : Type} {s : State} {t : Token} {rest : List Token} {r r' : Result α}
    (hs : s.rest = t :: rest) (h : R (s.read t rest) r r') : R s r r'
  note {α : Type} {s : State} {e : SyntaxError} {r r' : Result α}
    (h : R (s.note e) r r') : R s r r'
  take {α : Type} {s : State} {r r' : Result α} (h : R s.take r r') : R s r r'
  bind {α β : Type} {p q : Parser α} {f g : α → Parser β} {s : State}
    (h : R s (p s) (q s)) (hf : ∀ a t, R t (f a t) (g a t)) : R s ((p >>= f) s) ((q >>= g) s)
  recover {p q : Parser Stmt} {s : State} (h : R s (p s) (q s)) :
    R s (recover p s) (recover q s)

/-- Two actions are related from every state. -/
def Related (R : Relates) {α : Type} (p q : Parser α) : Prop := ∀ s, R s (p s) (q s)

namespace Compatible

variable {R : Relates} (hR : Compatible R) {α β : Type}

include hR

theorem pure (a : α) : Related R (pure a) (pure a) := fun s => hR.done s a

theorem fault (f : SyntaxFault) : Related R (α := α) (Parser.fail f) (Parser.fail f) :=
  fun s => hR.fail s _

theorem seq {p q : Parser α} {f g : α → Parser β} (h : Related R p q)
    (hf : ∀ a, Related R (f a) (g a)) : Related R (p >>= f) (q >>= g) :=
  fun s => hR.bind (h s) hf

theorem report (t : Token) (f : SyntaxFault) : Related R (report t f) (Parser.report t f) :=
  fun s => hR.note (hR.done (s.note ⟨t, f⟩) ())

theorem reportHere (f : SyntaxFault) : Related R (reportHere f) (Parser.reportHere f) :=
  fun s => hR.note (hR.done (s.note ⟨s.peek, f⟩) ())

theorem freshRef : Related R freshRef freshRef :=
  fun s => hR.take (hR.done s.take s.nextRef)

theorem atEnd : Related R atEnd atEnd := fun s => hR.done s s.atEnd

theorem sees (k : Symbol) : Related R (sees k) (Parser.sees k) := fun s => hR.done s (s.sees k)

theorem acceptIf (q : Token → Bool) : Related R (acceptIf q) (Parser.acceptIf q) := by
  intro s
  cases h : s.rest with
  | nil => rw [acceptIf_nil h]; exact hR.done s none
  | cons t rest =>
    rw [acceptIf_cons h]
    split_ifs
    · exact hR.read h (hR.done (s.read t rest) (some t))
    · exact hR.done s none

theorem accept (k : Symbol) : Related R (accept k) (Parser.accept k) := hR.acceptIf (·.is k)

theorem expect (k : Symbol) (f : SyntaxFault) : Related R (expect k f) (Parser.expect k f) :=
  hR.seq (hR.accept k) fun
    | some t => hR.pure t
    | none => hR.fault f

theorem optionally (c : Prop) [Decidable c] {o : Parser Unit} {p q : Parser α}
    (ho : Related R o o) (h : Related R p q) :
    Related R (if c then o >>= fun _ => p else p) (if c then o >>= fun _ => q else q) := by
  split_ifs
  · exact hR.seq ho fun _ => h
  · exact h

theorem superAccess (t : Token) : Related R (superAccess t) (Parser.superAccess t) :=
  hR.seq (hR.expect _ _) fun _ => hR.seq (hR.expect _ _) fun _ =>
    hR.seq hR.freshRef fun _ => hR.pure _

end Compatible

/-! ## The rules for expressions -/

/-- The rules for expressions granted `n` and `m` steps are related. -/
structure ExpressionRules (R : Relates) (n m : Nat) : Prop where
  expression : Related R (expression n) (expression m)
  level (l : Level) : Related R (level n l) (level m l)
  operand (l : Level) : Related R (operand n l) (operand m l)
  more (l : Level) (e : Expr) : Related R (more n l e) (more m l e)
  unary : Related R (unary n) (unary m)
  call : Related R (call n) (call m)
  suffixes (e : Expr) : Related R (suffixes n e) (suffixes m e)
  arguments (k : Nat) : Related R (arguments n k) (arguments m k)
  primary : Related R (primary n) (primary m)

namespace Compatible

variable {R : Relates} (hR : Compatible R) {n m : Nat}

include hR

theorem primary_succ (ih : ExpressionRules R n m) :
    Related R (primary (n + 1)) (primary (m + 1)) := by
  intro s
  unfold primary
  cases h : s.rest with
  | nil =>
    dsimp only
    obtain ⟨value, hlast⟩ | hlast := lastLiteral_cases s
    · rw [hlast]
      exact hR.done _ _
    · rw [hlast]
      exact hR.fail s _
  | cons t rest =>
    -- Every alternative but the last reads `t` and goes on from there.
    have leaf (e : Expr) : R s (.ok e (s.read t rest)) (.ok e (s.read t rest)) :=
      hR.read h (hR.done _ _)
    simp only
    split
    · exact leaf _
    · exact leaf _
    · exact leaf _
    · exact leaf _
    · exact leaf _
    · exact leaf _
    · exact hR.read h (hR.superAccess t (s.read t rest))
    · exact hR.read h (hR.seq hR.freshRef (fun _ => hR.pure _) (s.read t rest))
    · exact hR.read h (hR.seq hR.freshRef (fun _ => hR.pure _) (s.read t rest))
    · exact hR.read h (hR.seq ih.expression
        (fun _ => hR.seq (hR.expect _ _) fun _ => hR.pure _) (s.read t rest))
    · exact hR.read h (ih.call (s.read t rest))
    · exact hR.fail s _

theorem suffixes_succ (ih : ExpressionRules R n m) (e : Expr) :
    Related R (suffixes (n + 1) e) (suffixes (m + 1) e) := by
  unfold suffixes
  refine hR.seq (hR.accept _) fun paren => ?_
  cases paren with
  | some _ =>
    refine hR.seq (hR.sees _) fun empty => ?_
    cases empty with
    | true => exact hR.seq (hR.pure _) fun _ => hR.seq (hR.expect _ _) fun _ => ih.suffixes _
    | false =>
      exact hR.seq (ih.arguments 0) fun _ => hR.seq (hR.expect _ _) fun _ => ih.suffixes _
  | none =>
    refine hR.seq (hR.accept _) fun dot => ?_
    cases dot with
    | some _ =>
      exact hR.seq (hR.expect _ _) fun name =>
        hR.optionally _ (hR.report _ _) (ih.suffixes (.get e name))
    | none => exact hR.pure e

theorem expression_succ (ih : ExpressionRules R n m) :
    Related R (expression (n + 1)) (expression (m + 1)) := by
  unfold expression
  refine hR.seq (ih.level _) fun target => hR.seq (hR.accept _) fun equals => ?_
  cases equals with
  | none => exact hR.pure target
  | some _ =>
    refine hR.seq ih.expression fun value => ?_
    cases target
    case var => exact hR.seq hR.freshRef fun _ => hR.pure _
    case get => exact hR.pure _
    all_goals exact hR.seq (hR.report _ _) fun _ => hR.pure _

/-- **The rules for expressions respect every compatible relation.** -/
theorem expressionRules : ∀ {n m : Nat}, n ≤ m → ExpressionRules R n m
  | 0, _, _ =>
    { expression := fun s => hR.exhausted s _
      level := fun _ s => hR.exhausted s _
      operand := fun _ s => hR.exhausted s _
      more := fun _ _ s => hR.exhausted s _
      unary := fun s => hR.exhausted s _
      call := fun s => hR.exhausted s _
      suffixes := fun _ s => hR.exhausted s _
      arguments := fun _ s => hR.exhausted s _
      primary := fun s => hR.exhausted s _ }
  | n + 1, m + 1, hnm => by
    have ih : ExpressionRules R n m := expressionRules (Nat.le_of_succ_le_succ hnm)
    refine ⟨hR.expression_succ ih, fun l => ?_, fun l => ?_, fun l e => ?_, ?_, ?_,
      hR.suffixes_succ ih, fun k => ?_, hR.primary_succ ih⟩
    · unfold level
      exact hR.seq (ih.operand l) fun left => ih.more l left
    · unfold operand
      cases l.tighter with
      | some l' => exact ih.level l'
      | none => exact ih.unary
    · unfold more
      refine hR.seq (hR.acceptIf _) fun op => ?_
      cases op with
      | none => exact hR.pure e
      | some op => exact hR.seq (ih.operand l) fun right => ih.more l _
    · unfold unary
      refine hR.seq (hR.acceptIf _) fun op => ?_
      cases op with
      | some op => exact hR.seq ih.unary fun _ => hR.pure _
      | none => exact ih.call
    · unfold call
      exact hR.seq ih.primary fun callee => ih.suffixes callee
    · unfold arguments
      refine hR.optionally _ (hR.reportHere _) (hR.seq ih.expression fun arg =>
        hR.seq (hR.accept _) fun comma => ?_)
      cases comma with
      | some _ => exact hR.seq (ih.arguments (k + 1)) fun _ => hR.pure _
      | none => exact hR.pure _

end Compatible

/-! ## The rules for statements -/

/-- The rules for statements granted `n` and `m` steps are related. -/
structure StatementRules (R : Relates) (n m : Nat) : Prop where
  declarations (b : Bool) : Related R (declarations n b) (declarations m b)
  declaration : Related R (declaration n) (declaration m)
  classDeclaration : Related R (classDeclaration n) (classDeclaration m)
  methods : Related R (methods n) (methods m)
  function (form : FunctionForm) : Related R (function n form) (function m form)
  block : Related R (block n) (block m)
  statement : Related R (statement n) (statement m)
  forStatement : Related R (forStatement n) (forStatement m)
  ifStatement : Related R (ifStatement n) (ifStatement m)
  whileStatement : Related R (whileStatement n) (whileStatement m)

namespace Compatible

variable {R : Relates} (hR : Compatible R) {n m : Nat}

include hR

theorem parameters : ∀ {n m : Nat}, n ≤ m → ∀ k, Related R (parameters n k) (parameters m k)
  | 0, _, _, _ => fun s => hR.exhausted s _
  | n + 1, m + 1, hnm, k => by
    unfold Parser.parameters
    refine hR.optionally _ (hR.reportHere _) (hR.seq (hR.expect _ _) fun param =>
      hR.seq (hR.accept _) fun comma => ?_)
    cases comma with
    | some _ => exact hR.seq (parameters (Nat.le_of_succ_le_succ hnm) _) fun _ => hR.pure _
    | none => exact hR.pure _

theorem expressionUnless (h : n ≤ m) (k : Symbol) :
    Related R (expressionUnless n k) (expressionUnless m k) := by
  unfold Parser.expressionUnless
  refine hR.seq (hR.sees k) fun seen => ?_
  cases seen with
  | true => exact hR.pure none
  | false => exact hR.seq (hR.expressionRules h).expression fun _ => hR.pure _

theorem letDeclaration (h : n ≤ m) : Related R (letDeclaration n) (letDeclaration m) := by
  unfold Parser.letDeclaration
  refine hR.seq (hR.expect _ _) fun name => hR.seq (hR.accept _) fun equals => ?_
  cases equals with
  | some _ =>
    exact hR.seq (hR.seq (hR.expressionRules h).expression fun _ => hR.pure _) fun _ =>
      hR.seq (hR.expect _ _) fun _ => hR.pure _
  | none => exact hR.seq (hR.pure none) fun _ => hR.seq (hR.expect _ _) fun _ => hR.pure _

theorem expressionStatement (h : n ≤ m) :
    Related R (expressionStatement n) (expressionStatement m) :=
  hR.seq (hR.expressionRules h).expression fun _ => hR.seq (hR.expect _ _) fun _ => hR.pure _

theorem returnStatement (h : n ≤ m) (t : Token) :
    Related R (returnStatement n t) (returnStatement m t) :=
  hR.seq (hR.expressionUnless h _) fun _ => hR.seq (hR.expect _ _) fun _ => hR.pure _

theorem forInit (h : n ≤ m) : Related R (forInit n) (forInit m) := by
  unfold Parser.forInit
  refine hR.seq (hR.accept _) fun semicolon => ?_
  cases semicolon with
  | some _ => exact hR.pure none
  | none =>
    refine hR.seq (hR.accept _) fun letKw => ?_
    cases letKw with
    | some _ => exact hR.seq (hR.letDeclaration h) fun _ => hR.pure _
    | none => exact hR.seq (hR.expressionStatement h) fun _ => hR.pure _

theorem nameAfter (k : Symbol) (f : SyntaxFault) :
    Related R (nameAfter k f) (Parser.nameAfter k f) := by
  unfold Parser.nameAfter
  refine hR.seq (hR.accept k) fun found => ?_
  cases found with
  | some _ => exact hR.seq (hR.expect _ _) fun _ => hR.pure _
  | none => exact hR.pure none

theorem superclass : Related R superclass superclass := by
  unfold Parser.superclass
  refine hR.seq (hR.nameAfter _ _) fun name => ?_
  cases name with
  | some _ => exact hR.seq hR.freshRef fun _ => hR.pure _
  | none => exact hR.pure none

theorem declarations_succ (ih : StatementRules R n m) (b : Bool) :
    Related R (declarations (n + 1) b) (declarations (m + 1) b) := by
  unfold declarations
  refine hR.seq hR.atEnd fun ended => hR.seq (hR.sees _) fun closed => ?_
  split_ifs
  · exact hR.pure _
  · refine hR.seq (fun s => hR.recover (ih.declaration s)) fun stmt => ?_
    cases stmt with
    | some _ => exact hR.seq (ih.declarations b) fun _ => hR.pure _
    | none => exact ih.declarations b

theorem declaration_succ (ih : StatementRules R n m) (h : n ≤ m) :
    Related R (declaration (n + 1)) (declaration (m + 1)) := by
  unfold declaration
  refine hR.seq (hR.accept _) fun classKw => ?_
  cases classKw with
  | some _ => exact ih.classDeclaration
  | none =>
    refine hR.seq (hR.accept _) fun functionKw => ?_
    cases functionKw with
    | some _ => exact hR.seq (ih.function _) fun _ => hR.pure _
    | none =>
      refine hR.seq (hR.accept _) fun letKw => ?_
      cases letKw with
      | some _ => exact hR.letDeclaration h
      | none => exact ih.statement

theorem statement_succ (ih : StatementRules R n m) (h : n ≤ m) :
    Related R (statement (n + 1)) (statement (m + 1)) := by
  unfold statement
  refine hR.seq (hR.accept _) fun forKw => ?_
  cases forKw with
  | some _ => exact ih.forStatement
  | none =>
    refine hR.seq (hR.accept _) fun ifKw => ?_
    cases ifKw with
    | some _ => exact ih.ifStatement
    | none =>
      refine hR.seq (hR.accept _) fun returnKw => ?_
      cases returnKw with
      | some t => exact hR.returnStatement h t
      | none =>
        refine hR.seq (hR.accept _) fun whileKw => ?_
        cases whileKw with
        | some _ => exact ih.whileStatement
        | none =>
          refine hR.seq (hR.accept _) fun brace => ?_
          cases brace with
          | some _ => exact hR.seq ih.block fun _ => hR.pure _
          | none => exact hR.expressionStatement h

theorem function_succ (ih : StatementRules R n m) (h : n ≤ m) (form : FunctionForm) :
    Related R (function (n + 1) form) (function (m + 1) form) := by
  unfold function
  refine hR.seq (hR.expect _ _) fun name => hR.seq (hR.expect _ _) fun _ =>
    hR.seq (hR.sees _) fun empty => ?_
  cases empty with
  | true =>
    exact hR.seq (hR.pure _) fun _ => hR.seq (hR.expect _ _) fun _ =>
      hR.seq (hR.expect _ _) fun _ => hR.seq ih.block fun _ => hR.pure _
  | false =>
    exact hR.seq (hR.parameters h 0) fun _ => hR.seq (hR.expect _ _) fun _ =>
      hR.seq (hR.expect _ _) fun _ => hR.seq ih.block fun _ => hR.pure _

theorem methods_succ (ih : StatementRules R n m) :
    Related R (methods (n + 1)) (methods (m + 1)) := by
  have step : Related R
      (do
        let method ← function n .method
        return method :: (← methods n))
      (do
        let method ← function m .method
        return method :: (← methods m)) :=
    hR.seq (ih.function _) fun _ => hR.seq ih.methods fun _ => hR.pure _
  unfold methods
  refine hR.seq (hR.sees _) fun closed => hR.seq hR.atEnd fun ended => ?_
  split_ifs
  · exact hR.pure _
  · exact step

theorem ifStatement_succ (ih : StatementRules R n m) (h : n ≤ m) :
    Related R (ifStatement (n + 1)) (ifStatement (m + 1)) := by
  unfold ifStatement
  refine hR.seq (hR.expect _ _) fun _ => hR.seq (hR.expressionRules h).expression fun cond =>
    hR.seq (hR.expect _ _) fun _ => hR.seq ih.statement fun thenDo =>
      hR.seq (hR.accept _) fun elseKw => ?_
  cases elseKw with
  | some _ => exact hR.seq ih.statement fun _ => hR.pure _
  | none => exact hR.pure _

/-- **The rules for statements respect every compatible relation.** -/
theorem statementRules : ∀ {n m : Nat}, n ≤ m → StatementRules R n m
  | 0, _, _ =>
    { declarations := fun _ s => hR.exhausted s _
      declaration := fun s => hR.exhausted s _
      classDeclaration := fun s => hR.exhausted s _
      methods := fun s => hR.exhausted s _
      function := fun _ s => hR.exhausted s _
      block := fun s => hR.exhausted s _
      statement := fun s => hR.exhausted s _
      forStatement := fun s => hR.exhausted s _
      ifStatement := fun s => hR.exhausted s _
      whileStatement := fun s => hR.exhausted s _ }
  | n + 1, m + 1, hnm => by
    have h : n ≤ m := Nat.le_of_succ_le_succ hnm
    have ih : StatementRules R n m := statementRules h
    refine ⟨hR.declarations_succ ih, hR.declaration_succ ih h, ?_, hR.methods_succ ih,
      hR.function_succ ih h, ?_, hR.statement_succ ih h, ?_, hR.ifStatement_succ ih h, ?_⟩
    · unfold classDeclaration
      exact hR.seq (hR.expect _ _) fun _ => hR.seq hR.superclass fun _ =>
        hR.seq (hR.nameAfter _ _) fun _ => hR.seq (hR.expect _ _) fun _ =>
          hR.seq ih.methods fun _ => hR.seq (hR.expect _ _) fun _ => hR.pure _
    · unfold block
      exact hR.seq (ih.declarations true) fun _ => hR.seq (hR.expect _ _) fun _ => hR.pure _
    · unfold forStatement
      exact hR.seq (hR.expect _ _) fun _ => hR.seq (hR.forInit h) fun _ =>
        hR.seq (hR.expressionUnless h _) fun _ => hR.seq (hR.expect _ _) fun _ =>
          hR.seq (hR.expressionUnless h _) fun _ => hR.seq (hR.expect _ _) fun _ =>
            hR.seq ih.statement fun _ => hR.pure _
    · unfold whileStatement
      exact hR.seq (hR.expect _ _) fun _ => hR.seq (hR.expressionRules h).expression fun _ =>
        hR.seq (hR.expect _ _) fun _ => hR.seq ih.statement fun _ => hR.pure _

end Compatible

/-! ## What a parser leaves behind -/

/-- A later state of a parser: its tokens are among those before, and errors and identities have
only been added. -/
structure State.Before (s s' : State) : Prop where
  rest : s'.rest <:+ s.rest
  errors : s.errors.size ≤ s'.errors.size
  nextRef : s.nextRef ≤ s'.nextRef

theorem State.Before.refl (s : State) : s.Before s := ⟨List.suffix_refl _, le_refl _, le_refl _⟩

theorem State.Before.trans {s t u : State} (h : s.Before t) (h' : t.Before u) : s.Before u :=
  ⟨h'.rest.trans h.rest, h.errors.trans h'.errors, h.nextRef.trans h'.nextRef⟩

theorem State.before_read {s : State} {t : Token} {rest : List Token} (h : s.rest = t :: rest) :
    s.Before (s.read t rest) := by
  refine ⟨?_, le_refl _, le_refl _⟩
  rw [h]
  exact List.suffix_cons t rest

theorem State.before_note (s : State) (e : SyntaxError) : s.Before (s.note e) := by
  refine ⟨List.suffix_refl _, ?_, le_refl _⟩
  simp [State.note]

theorem State.before_take (s : State) : s.Before s.take :=
  ⟨List.suffix_refl _, le_refl _, Nat.le_succ _⟩

theorem State.skipFrom_suffix (last : Token) (tokens : List Token) :
    (skipFrom last tokens).2 <:+ tokens := by
  fun_induction skipFrom last tokens with
  | case1 => exact List.suffix_refl _
  | case2 => exact List.suffix_refl _
  | case3 last t rest _ ih => exact ih.trans (List.suffix_cons t rest)

theorem State.before_synchronize (s : State) : s.Before s.synchronize := by
  unfold State.synchronize
  split
  · exact State.Before.refl s
  · next t rest h =>
    split_ifs
    · exact State.Before.refl s
    · refine ⟨?_, le_refl _, le_refl _⟩
      rw [h]
      exact (skipFrom_suffix t rest).trans (List.suffix_cons t rest)

/-- The state a result leaves behind, if it is no exhaustion, comes after the first one. -/
def Grows {α : Type} (s : State) (r : Result α) : Prop :=
  match r with
  | .ok _ s' => s.Before s'
  | .fail _ s' => s.Before s'
  | .exhausted => True

theorem Grows.of_before {α : Type} {s t : State} (h : s.Before t) :
    ∀ {r : Result α}, Grows t r → Grows s r
  | .ok _ _, h' => h.trans h'
  | .fail _ _, h' => h.trans h'
  | .exhausted, _ => trivial

/-- **Parsers only go forward**: after any rule, the tokens left are a suffix of those before. -/
theorem grows_compatible : Compatible (fun s r _ => Grows s r) where
  exhausted _ _ := trivial
  done s _ := State.Before.refl s
  fail s _ := State.Before.refl s
  read hs h := Grows.of_before (State.before_read hs) h
  note h := Grows.of_before (State.before_note _ _) h
  take h := Grows.of_before (State.before_take _) h
  bind {_ _ p _ f _ s} h hf := by
    cases hp : p s with
    | ok a t =>
      rw [hp] at h
      rw [bind_of_ok hp]
      exact Grows.of_before h (hf a t)
    | fail e t => rw [hp] at h; rw [bind_of_fail hp]; exact h
    | exhausted => rw [bind_of_exhausted hp]; trivial
  recover {p _ s} h := by
    unfold recover
    cases hp : p s with
    | ok a t => rw [hp] at h; exact h
    | fail e t =>
      rw [hp] at h
      exact (State.Before.trans h (State.before_note t e)).trans (State.before_synchronize _)
    | exhausted => trivial

/-! ## More steps change nothing -/

/-- The first result is an exhaustion or the second. -/
def Refines {α : Type} (r r' : Result α) : Prop := r = .exhausted ∨ r = r'

/-- **A rule that ends within its steps ends the same way with more of them.** -/
theorem refines_compatible : Compatible (fun _ r r' => Refines r r') where
  exhausted _ _ := .inl rfl
  done _ _ := .inr rfl
  fail _ _ := .inr rfl
  read _ h := h
  note h := h
  take h := h
  bind {_ _ p q f g s} h hf := by
    rcases h with h | h
    · exact .inl (bind_of_exhausted h)
    · cases hp : p s with
      | ok a t => rw [bind_of_ok hp, bind_of_ok (h ▸ hp)]; exact hf a t
      | fail e t => rw [bind_of_fail hp, bind_of_fail (h ▸ hp)]; exact .inr rfl
      | exhausted => exact .inl (bind_of_exhausted hp)
  recover {p q s} h := by
    unfold recover
    rcases h with h | h
    · exact .inl (by rw [h])
    · exact .inr (by rw [h])

end Parser

end Scriptlet
