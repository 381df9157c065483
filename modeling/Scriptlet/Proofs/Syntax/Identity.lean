import Scriptlet.Proofs.Parser.Action
import Mathlib.Data.List.Count
import Mathlib.Data.List.Nodup

/-!
# Identities of references

The parser gives every reference an identity of its own. `Labels p held kept` says so of an action:
whatever identities are held before it, once each and below the next fresh one, those kept after it
are so again. Actions are composed by handing the identities on; what is dropped on the way (the
target of an assignment, a declaration with an error) only leaves gaps.

Results:
* `Expr.refs`, `Stmt.refs`: the identities in a tree.
* `parse_labels`: those of a parsed program are all different and none has been given before.
* `parseAll_labels`: so are those of all programs that are parsed one after the other.
-/

namespace Scriptlet

mutual

/-- The identities in an expression. -/
def Expr.refs : Expr → List RefId
  | .literal _ => []
  | .unary _ operand => operand.refs
  | .binary left _ right => left.refs ++ right.refs
  | .logical left _ right => left.refs ++ right.refs
  | .group inner => inner.refs
  | .var ref _ => [ref]
  | .assign ref _ value => value.refs ++ [ref]
  | .call callee _ args => callee.refs ++ Expr.refsAll args
  | .get object _ => object.refs
  | .set object _ value => object.refs ++ value.refs
  | .this ref _ => [ref]
  | .super ref _ _ => [ref]
termination_by structural e => e

def Expr.refsAll : List Expr → List RefId
  | [] => []
  | e :: es => e.refs ++ Expr.refsAll es
termination_by structural es => es

end

mutual

/-- The identities in a statement. -/
def Stmt.refs : Stmt → List RefId
  | .expr e => e.refs
  | .declare _ none => []
  | .declare _ (some init) => init.refs
  | .block body => Stmt.refsAll body
  | .branch cond thenDo none => cond.refs ++ thenDo.refs
  | .branch cond thenDo (some elseDo) => cond.refs ++ thenDo.refs ++ elseDo.refs
  | .loop cond body => cond.refs ++ body.refs
  | .function decl => decl.refs
  | .ret _ none => []
  | .ret _ (some value) => value.refs
  | .classDecl decl => decl.refs
termination_by structural s => s

def FunctionDecl.refs : FunctionDecl → List RefId
  | ⟨_, _, body⟩ => Stmt.refsAll body
termination_by structural decl => decl

def ClassDecl.refs : ClassDecl → List RefId
  | ⟨_, superclass, _, methods⟩ =>
    (superclass.map (·.ref)).toList ++ FunctionDecl.refsAll methods
termination_by structural decl => decl

def Stmt.refsAll : List Stmt → List RefId
  | [] => []
  | s :: ss => s.refs ++ Stmt.refsAll ss
termination_by structural ss => ss

def FunctionDecl.refsAll : List FunctionDecl → List RefId
  | [] => []
  | d :: ds => d.refs ++ FunctionDecl.refsAll ds
termination_by structural ds => ds

end

/-- The identities are all different and lie from `low` up to and without `high`. -/
structure Fresh (low high : Nat) (rs : List Nat) : Prop where
  le : low ≤ high
  once (r : Nat) : rs.count r ≤ 1
  within (r : Nat) (h : r ∈ rs) : low ≤ r ∧ r < high

namespace Fresh

variable {low high : Nat} {rs rs' : List Nat}

theorem nodup (h : Fresh low high rs) : rs.Nodup := List.nodup_iff_count_le_one.mpr h.once

theorem nil (h : low ≤ high) : Fresh low high [] := ⟨h, fun _ => Nat.zero_le _, nofun⟩

/-- Identities may be dropped and put in another order. -/
theorem of_count (h : Fresh low high rs) (hc : ∀ r, rs'.count r ≤ rs.count r) :
    Fresh low high rs' where
  le := h.le
  once r := (hc r).trans (h.once r)
  within r hr := by
    refine h.within r ?_
    have := hc r
    have := List.count_pos_iff.mpr hr
    exact List.count_pos_iff.mp (by omega)

theorem mono (h : Fresh low high rs) {high' : Nat} (hle : high ≤ high') :
    Fresh low high' rs where
  le := h.le.trans hle
  once := h.once
  within r hr := ⟨(h.within r hr).1, (h.within r hr).2.trans_le hle⟩

/-- The next identity is a new one. -/
theorem push (h : Fresh low high rs) : Fresh low (high + 1) (rs ++ [high]) where
  le := h.le.trans (Nat.le_succ _)
  once r := by
    have hnew : high ∉ rs := fun hm => Nat.lt_irrefl _ (h.within _ hm).2
    have := h.once r
    by_cases hr : r = high
    · subst hr
      simp [List.count_append, List.count_eq_zero.mpr hnew]
    · simp [List.count_append, Ne.symm hr, this]
  within r hr := by
    have hle := h.le
    rcases List.mem_append.mp hr with hr | hr
    · have := h.within r hr
      omega
    · have := List.mem_singleton.mp hr
      omega

/-- Identities from two ranges, one after the other. -/
theorem append {mid : Nat} (h : Fresh low mid rs) (h' : Fresh mid high rs') :
    Fresh low high (rs ++ rs') where
  le := h.le.trans h'.le
  once r := by
    rw [List.count_append]
    by_cases hr : r < mid
    · have hnot : r ∉ rs' := fun hm => absurd (h'.within r hm).1 (by omega)
      rw [List.count_eq_zero.mpr hnot]
      exact h.once r
    · have hnot : r ∉ rs := fun hm => hr (h.within r hm).2
      rw [List.count_eq_zero.mpr hnot, Nat.zero_add]
      exact h'.once r
  within r hr := by
    have hle := h.le
    have hle' := h'.le
    rcases List.mem_append.mp hr with hr | hr
    · have := h.within r hr
      omega
    · have := h'.within r hr
      omega

end Fresh

namespace Parser

variable {α β : Type}

/-- Identities held before the action, and kept after it with what it yields, are fresh. -/
def Labels (p : Parser α) (held : List RefId) (kept : α → List RefId) : Prop :=
  ∀ ⦃s : State⦄ ⦃a : α⦄ ⦃s' : State⦄, p s = .ok a s' →
    ∀ low, Fresh low s.nextRef held → Fresh low s'.nextRef (kept a)

section Composing

variable {p : Parser α} {held : List RefId}

theorem Labels.seq {f : α → Parser β} {kept : α → List RefId} {kept' : β → List RefId}
    (hp : Labels p held kept) (hf : ∀ a, Labels (f a) (kept a) kept') :
    Labels (p >>= f) held kept' := by
  intro s b s' h low hheld
  obtain ⟨a, t, ht, h⟩ := bind_eq_ok.mp h
  exact hf a h low (hp ht low hheld)

theorem labels_exhausted {kept : α → List RefId} : Labels exhausted held kept :=
  fun _ _ _ h => nomatch h

theorem labels_pure {a : α} {kept : α → List RefId}
    (hc : ∀ r, (kept a).count r ≤ held.count r) : Labels (pure a) held kept := by
  intro s b s' h low hheld
  cases h
  exact hheld.of_count hc

/-- An action that takes no identity. -/
def Leaves (p : Parser α) : Prop :=
  ∀ ⦃s : State⦄ ⦃a : α⦄ ⦃s' : State⦄, p s = .ok a s' → s'.nextRef = s.nextRef

theorem Leaves.labels (hp : Leaves p) : Labels p held fun _ => held := by
  intro s a s' h low hheld
  rw [hp h]
  exact hheld

theorem Leaves.seq {f : α → Parser β} (hp : Leaves p) (hf : ∀ a, Leaves (f a)) :
    Leaves (p >>= f) := by
  intro s b s' h
  obtain ⟨a, t, ht, h⟩ := bind_eq_ok.mp h
  rw [hf a h, hp ht]

/-- An action that is taken only under a condition, and then what follows. -/
theorem Leaves.optionally {o : Parser Unit} (ho : Leaves o) (hp : Leaves p) (c : Prop)
    [Decidable c] : Leaves (if c then o >>= fun _ => p else p) := by
  split_ifs
  · exact ho.seq fun _ => hp
  · exact hp

theorem Leaves.optionally_labels {o : Parser Unit} {kept : α → List RefId} (ho : Leaves o)
    (hp : Labels p held kept) (c : Prop) [Decidable c] :
    Labels (if c then o >>= fun _ => p else p) held kept := by
  split_ifs
  · exact ho.labels.seq fun _ => hp
  · exact hp

theorem leaves_pure (a : α) : Leaves (pure a : Parser α) := by
  intro s b s' h
  cases h
  rfl

theorem leaves_fail (f : SyntaxFault) : Leaves (fail f : Parser α) := fun _ _ _ h => nomatch h

theorem leaves_report (t : Token) (f : SyntaxFault) : Leaves (report t f) := by
  intro s a s' h
  cases h
  rfl

theorem leaves_reportHere (f : SyntaxFault) : Leaves (reportHere f) := by
  intro s a s' h
  cases h
  rfl

theorem leaves_sees (k : Symbol) : Leaves (sees k) := by
  intro s a s' h
  cases h
  rfl

theorem leaves_atEnd : Leaves atEnd := by
  intro s a s' h
  cases h
  rfl

theorem leaves_acceptIf (q : Token → Bool) : Leaves (acceptIf q) := by
  intro s o s' h
  unfold acceptIf at h
  split at h
  · cases h; rfl
  · split_ifs at h <;> cases h <;> rfl

theorem leaves_expect (k : Symbol) (f : SyntaxFault) : Leaves (expect k f) := by
  refine (leaves_acceptIf _).seq fun o => ?_
  cases o with
  | none => exact leaves_fail f
  | some t => exact leaves_pure t

theorem labels_freshRef : Labels freshRef held fun ref => held ++ [ref] := by
  intro s ref s' h low hheld
  cases h
  exact hheld.push

end Composing

/-! ## Expressions -/

/-- Every rule for expressions keeps the identities of its tree besides those held. -/
structure LabelsExpressions (n : Nat) : Prop where
  expression (held) : Labels (expression n) held fun e => held ++ e.refs
  level (l : Level) (held) : Labels (level n l) held fun e => held ++ e.refs
  operand (l : Level) (held) : Labels (operand n l) held fun e => held ++ e.refs
  more (l : Level) (left : Expr) (held) :
    Labels (more n l left) (held ++ left.refs) fun e => held ++ e.refs
  unary (held) : Labels (unary n) held fun e => held ++ e.refs
  call (held) : Labels (call n) held fun e => held ++ e.refs
  suffixes (e : Expr) (held) : Labels (suffixes n e) (held ++ e.refs) fun e => held ++ e.refs
  arguments (c : Nat) (held) : Labels (arguments n c) held fun es => held ++ Expr.refsAll es
  primary (held) : Labels (primary n) held fun e => held ++ e.refs

theorem labels_expression {n : Nat} (ih : LabelsExpressions n) (held : List RefId) :
    Labels (expression (n + 1)) held fun e => held ++ e.refs := by
  unfold expression
  refine (ih.level .or held).seq fun target => (leaves_acceptIf _).labels.seq fun o => ?_
  cases o with
  | none => exact labels_pure fun r => le_refl _
  | some eq =>
    refine (ih.expression _).seq fun value => ?_
    cases target
    case var ref name =>
      refine labels_freshRef.seq fun ref' => labels_pure fun r => ?_
      simp only [Expr.refs, List.count_append]
      omega
    case get object name =>
      refine labels_pure fun r => ?_
      simp only [Expr.refs, List.count_append]
      omega
    all_goals
      refine (leaves_report _ _).labels.seq fun _ => labels_pure fun r => ?_
      simp only [List.count_append]
      omega

theorem join_refs (l : Level) (left : Expr) (op : Token) (right : Expr) :
    (l.join left op right).refs = left.refs ++ right.refs := by
  cases l <;> rfl

theorem labels_suffixes {n : Nat} (ih : LabelsExpressions n) (e : Expr) (held : List RefId) :
    Labels (suffixes (n + 1) e) (held ++ e.refs) fun e => held ++ e.refs := by
  have applied (args : List Expr) : Labels (do
      let paren ← expect .rightParen .unclosedArguments
      suffixes n (.call e paren args)) (held ++ e.refs ++ Expr.refsAll args)
      fun e => held ++ e.refs := by
    refine (leaves_expect _ _).labels.seq fun paren => ?_
    have := ih.suffixes (.call e paren args) held
    rwa [Expr.refs, ← List.append_assoc] at this
  have unapplied : Labels (pure [] : Parser (List Expr)) (held ++ e.refs)
      fun args => held ++ e.refs ++ Expr.refsAll args :=
    labels_pure fun r => by simp [Expr.refsAll]
  unfold suffixes
  refine (leaves_acceptIf _).labels.seq fun o => ?_
  cases o with
  | some _ =>
    refine (leaves_sees _).labels.seq fun empty => ?_
    cases empty with
    | true => exact unapplied.seq applied
    | false => exact (ih.arguments 0 _).seq applied
  | none =>
    refine (leaves_acceptIf _).labels.seq fun o => ?_
    cases o with
    | some _ =>
      refine (leaves_expect _ _).labels.seq fun name => ?_
      exact (leaves_report _ _).optionally_labels (ih.suffixes (.get e name) held) _
    | none => exact labels_pure fun r => le_refl _

theorem labels_arguments {n : Nat} (ih : LabelsExpressions n) (c : Nat) (held : List RefId) :
    Labels (arguments (n + 1) c) held fun es => held ++ Expr.refsAll es := by
  unfold arguments
  refine (leaves_reportHere _).optionally_labels ((ih.expression held).seq fun arg => ?_) _
  refine (leaves_acceptIf _).labels.seq fun o => ?_
  cases o with
  | some _ =>
    refine (ih.arguments _ _).seq fun args => labels_pure fun r => ?_
    simp [Expr.refsAll]
  | none => exact labels_pure fun r => by simp [Expr.refsAll]

theorem labels_superAccess (keyword : Token) (held : List RefId) :
    Labels (superAccess keyword) held fun e => held ++ e.refs := by
  unfold superAccess
  refine (leaves_expect _ _).labels.seq fun _ => (leaves_expect _ _).labels.seq fun method => ?_
  exact labels_freshRef.seq fun ref => labels_pure fun r => le_refl _

theorem labels_primary {n : Nat} (ih : LabelsExpressions n) (held : List RefId) :
    Labels (primary (n + 1)) held fun e => held ++ e.refs := by
  have group : Labels (do
      let inner ← expression n
      let _ ← expect .rightParen .unclosedGroup
      return Expr.group inner) held fun e => held ++ e.refs := by
    refine (ih.expression held).seq fun inner => (leaves_expect _ _).labels.seq fun _ => ?_
    exact labels_pure fun r => le_refl _
  intro s e s' h low hheld
  unfold primary at h
  have literal : Fresh low s.nextRef (held ++ []) := by rwa [List.append_nil]
  split at h
  · obtain ⟨value, hlast⟩ | hlast := lastLiteral_cases s
    · rw [hlast] at h
      cases h
      exact literal
    · rw [hlast] at h
      cases h
  · next t rest hr =>
    split at h
    · cases h; exact literal
    · cases h; exact literal
    · cases h; exact literal
    · cases h; exact literal
    · cases h; exact literal
    · cases h; exact literal
    · exact labels_superAccess t held h low hheld
    · cases h; exact hheld.push
    · cases h; exact hheld.push
    · exact group h low hheld
    · exact ih.call held h low hheld
    · cases h

theorem labelsExpressions : ∀ n, LabelsExpressions n
  | 0 =>
    { expression := fun _ => labels_exhausted
      level := fun _ _ => labels_exhausted
      operand := fun _ _ => labels_exhausted
      more := fun _ _ _ => labels_exhausted
      unary := fun _ => labels_exhausted
      call := fun _ => labels_exhausted
      suffixes := fun _ _ => labels_exhausted
      arguments := fun _ _ => labels_exhausted
      primary := fun _ => labels_exhausted }
  | n + 1 => by
    have ih := labelsExpressions n
    refine ⟨labels_expression ih, fun l held => ?_, fun l held => ?_, fun l left held => ?_,
      fun held => ?_, fun held => ?_, labels_suffixes ih, labels_arguments ih, labels_primary ih⟩
    · unfold level
      exact (ih.operand l held).seq fun left => ih.more l left held
    · unfold operand
      cases l.tighter with
      | some l' => exact ih.level l' held
      | none => exact ih.unary held
    · unfold more
      refine (leaves_acceptIf _).labels.seq fun o => ?_
      cases o with
      | none => exact labels_pure fun r => le_refl _
      | some op =>
        refine (ih.operand l _).seq fun right => ?_
        have := ih.more l (l.join left op right) held
        rwa [join_refs, ← List.append_assoc] at this
    · unfold unary
      refine (leaves_acceptIf _).labels.seq fun o => ?_
      cases o with
      | some op => exact (ih.unary held).seq fun e => labels_pure fun r => le_refl _
      | none => exact ih.call held
    · unfold call
      exact (ih.primary held).seq fun callee => ih.suffixes callee held

/-! ## Declarations and statements -/

/-- The identities in a clause, and in the first clause of a `for`. -/
def clauseRefs (o : Option Expr) : List RefId := (o.map Expr.refs).getD []

def initRefs (o : Option Stmt) : List RefId := (o.map Stmt.refs).getD []

theorem declare_refs (name : Token) (init : Option Expr) :
    (Stmt.declare name init).refs = clauseRefs init := by
  cases init <;> rfl

theorem ret_refs (keyword : Token) (value : Option Expr) :
    (Stmt.ret keyword value).refs = clauseRefs value := by
  cases value <;> rfl

theorem count_forLoop (init : Option Stmt) (cond step : Option Expr) (body : Stmt) (r : RefId) :
    (forLoop init cond step body).refs.count r =
      (initRefs init).count r + (clauseRefs cond).count r + (clauseRefs step).count r +
        body.refs.count r := by
  cases init <;> cases cond <;> cases step <;>
    simp [forLoop, Stmt.refs, Stmt.refsAll, Expr.refs, initRefs, clauseRefs, List.count_append] <;>
    omega

theorem leaves_parameters : ∀ n c, Leaves (parameters n c)
  | 0, _ => fun _ _ _ h => nomatch h
  | n + 1, c => by
    unfold parameters
    refine (leaves_reportHere _).optionally ((leaves_expect _ _).seq fun param => ?_) _
    refine (leaves_acceptIf _).seq fun o => ?_
    cases o with
    | some _ => exact (leaves_parameters n _).seq fun _ => leaves_pure _
    | none => exact leaves_pure _

theorem leaves_nameAfter (k : Symbol) (f : SyntaxFault) : Leaves (nameAfter k f) := by
  unfold nameAfter
  refine (leaves_acceptIf _).seq fun o => ?_
  cases o with
  | some _ => exact (leaves_expect _ _).seq fun _ => leaves_pure _
  | none => exact leaves_pure _

theorem labels_superclass (held : List RefId) :
    Labels superclass held fun o => held ++ (o.map (·.ref)).toList := by
  unfold superclass
  refine (leaves_nameAfter _ _).labels.seq fun name => ?_
  cases name with
  | some name => exact labels_freshRef.seq fun ref => labels_pure fun r => le_refl _
  | none => exact labels_pure fun r => by simp

theorem labels_expressionUnless (n : Nat) (k : Symbol) (held : List RefId) :
    Labels (expressionUnless n k) held fun o => held ++ clauseRefs o := by
  unfold expressionUnless
  refine (leaves_sees k).labels.seq fun seen => ?_
  cases seen with
  | true => exact labels_pure fun r => by simp [clauseRefs]
  | false =>
    exact ((labelsExpressions n).expression held).seq fun e => labels_pure fun r => le_refl _

theorem labels_letDeclaration (n : Nat) (held : List RefId) :
    Labels (letDeclaration n) held fun d => held ++ d.refs := by
  have closed (name : Token) (init : Option Expr) : Labels (do
      let _ ← expect .semicolon .unclosedDeclaration
      return Stmt.declare name init) (held ++ clauseRefs init) fun d => held ++ d.refs := by
    refine (leaves_expect _ _).labels.seq fun _ => labels_pure fun r => ?_
    rw [declare_refs]
  have initial : Labels (some <$> expression n) held fun init => held ++ clauseRefs init :=
    ((labelsExpressions n).expression held).seq fun e => labels_pure fun r => le_refl _
  have absent : Labels (pure none : Parser (Option Expr)) held fun init => held ++ clauseRefs init :=
    labels_pure fun r => by simp [clauseRefs]
  unfold letDeclaration
  refine (leaves_expect _ _).labels.seq fun name => (leaves_acceptIf _).labels.seq fun eq => ?_
  cases eq with
  | some _ => exact initial.seq (closed name)
  | none => exact absent.seq (closed name)

theorem labels_expressionStatement (n : Nat) (held : List RefId) :
    Labels (expressionStatement n) held fun d => held ++ d.refs := by
  unfold expressionStatement
  refine ((labelsExpressions n).expression held).seq fun e => ?_
  exact (leaves_expect _ _).labels.seq fun _ => labels_pure fun r => le_refl _

theorem labels_returnStatement (n : Nat) (keyword : Token) (held : List RefId) :
    Labels (returnStatement n keyword) held fun d => held ++ d.refs := by
  unfold returnStatement
  refine (labels_expressionUnless n _ held).seq fun value => ?_
  refine (leaves_expect _ _).labels.seq fun _ => labels_pure fun r => ?_
  rw [ret_refs]

theorem labels_forInit (n : Nat) (held : List RefId) :
    Labels (forInit n) held fun o => held ++ initRefs o := by
  unfold forInit
  refine (leaves_acceptIf _).labels.seq fun semicolon => ?_
  cases semicolon with
  | some _ => exact labels_pure fun r => by simp [initRefs]
  | none =>
    refine (leaves_acceptIf _).labels.seq fun letKw => ?_
    cases letKw with
    | some _ => exact (labels_letDeclaration n held).seq fun d => labels_pure fun r => le_refl _
    | none => exact (labels_expressionStatement n held).seq fun d => labels_pure fun r => le_refl _

/-- Every rule for statements keeps the identities of its tree besides those held. -/
structure LabelsStatements (n : Nat) : Prop where
  declarations (b : Bool) (held) : Labels (declarations n b) held fun ds => held ++ Stmt.refsAll ds
  declaration (held) : Labels (declaration n) held fun d => held ++ d.refs
  classDeclaration (held) : Labels (classDeclaration n) held fun d => held ++ d.refs
  methods (held) : Labels (methods n) held fun ds => held ++ FunctionDecl.refsAll ds
  function (form : FunctionForm) (held) : Labels (function n form) held fun d => held ++ d.refs
  block (held) : Labels (block n) held fun ds => held ++ Stmt.refsAll ds
  statement (held) : Labels (statement n) held fun d => held ++ d.refs
  forStatement (held) : Labels (forStatement n) held fun d => held ++ d.refs
  ifStatement (held) : Labels (ifStatement n) held fun d => held ++ d.refs
  whileStatement (held) : Labels (whileStatement n) held fun d => held ++ d.refs

/-- A failed declaration has taken identities, but none of them is kept. -/
theorem labels_recover {n : Nat} (ih : LabelsStatements n) (held : List RefId) :
    Labels (recover (declaration n)) held fun o => held ++ initRefs o := by
  intro s o s' h low hheld
  have hgrows := (grows_compatible.statementRules (le_refl n)).declaration s
  unfold recover at h
  cases hd : declaration n s with
  | ok d t =>
    rw [hd] at h
    cases h
    exact ih.declaration held hd low hheld
  | fail e t =>
    rw [hd] at h hgrows
    cases h
    have hle := (State.before_synchronize (t.note e)).nextRef
    have hbefore : s.nextRef ≤ t.nextRef := State.Before.nextRef hgrows
    have : Fresh low (t.note e).synchronize.nextRef held := hheld.mono (hbefore.trans hle)
    simpa [initRefs] using this
  | exhausted => rw [hd] at h; cases h

theorem labels_declarations {n : Nat} (ih : LabelsStatements n) (b : Bool) (held : List RefId) :
    Labels (declarations (n + 1) b) held fun ds => held ++ Stmt.refsAll ds := by
  unfold declarations
  refine leaves_atEnd.labels.seq fun ended => (leaves_sees _).labels.seq fun closed => ?_
  split_ifs
  · exact labels_pure fun r => by simp [Stmt.refsAll]
  refine (labels_recover ih held).seq fun o => ?_
  cases o with
  | some d =>
    refine (ih.declarations b _).seq fun ds => labels_pure fun r => ?_
    simp [Stmt.refsAll, initRefs]
  | none =>
    have := ih.declarations b held
    simpa [initRefs] using this

theorem labels_function {n : Nat} (ih : LabelsStatements n) (form : FunctionForm)
    (held : List RefId) : Labels (function (n + 1) form) held fun d => held ++ d.refs := by
  have rest (name : Token) (params : List Token) : Labels (do
      let _ ← expect .rightParen .unclosedParameters
      let _ ← expect .leftBrace (.noFunctionBody form)
      let body ← block n
      return FunctionDecl.mk name params body) held fun d => held ++ d.refs := by
    refine (leaves_expect _ _).labels.seq fun _ => (leaves_expect _ _).labels.seq fun _ => ?_
    exact (ih.block held).seq fun body => labels_pure fun r => le_refl _
  unfold function
  refine (leaves_expect _ _).labels.seq fun name => (leaves_expect _ _).labels.seq fun _ =>
    (leaves_sees _).labels.seq fun empty => ?_
  cases empty with
  | true => exact (leaves_pure _).labels.seq (rest name)
  | false => exact (leaves_parameters n 0).labels.seq (rest name)

theorem labels_methods {n : Nat} (ih : LabelsStatements n) (held : List RefId) :
    Labels (methods (n + 1)) held fun ds => held ++ FunctionDecl.refsAll ds := by
  have step : Labels (do
      let method ← function n .method
      return method :: (← methods n)) held fun ds => held ++ FunctionDecl.refsAll ds := by
    refine (ih.function _ held).seq fun d => (ih.methods _).seq fun ds => labels_pure fun r => ?_
    simp [FunctionDecl.refsAll]
  unfold methods
  refine (leaves_sees _).labels.seq fun closed => leaves_atEnd.labels.seq fun ended => ?_
  split_ifs
  · exact labels_pure fun r => by simp [FunctionDecl.refsAll]
  · exact step

theorem labels_declaration {n : Nat} (ih : LabelsStatements n) (held : List RefId) :
    Labels (declaration (n + 1)) held fun d => held ++ d.refs := by
  unfold declaration
  refine (leaves_acceptIf _).labels.seq fun classKw => ?_
  cases classKw with
  | some _ => exact ih.classDeclaration held
  | none =>
    refine (leaves_acceptIf _).labels.seq fun functionKw => ?_
    cases functionKw with
    | some _ => exact (ih.function _ held).seq fun d => labels_pure fun r => le_refl _
    | none =>
      refine (leaves_acceptIf _).labels.seq fun letKw => ?_
      cases letKw with
      | some _ => exact labels_letDeclaration n held
      | none => exact ih.statement held

theorem labels_statement {n : Nat} (ih : LabelsStatements n) (held : List RefId) :
    Labels (statement (n + 1)) held fun d => held ++ d.refs := by
  unfold statement
  refine (leaves_acceptIf _).labels.seq fun forKw => ?_
  cases forKw with
  | some _ => exact ih.forStatement held
  | none =>
    refine (leaves_acceptIf _).labels.seq fun ifKw => ?_
    cases ifKw with
    | some _ => exact ih.ifStatement held
    | none =>
      refine (leaves_acceptIf _).labels.seq fun returnKw => ?_
      cases returnKw with
      | some t => exact labels_returnStatement n t held
      | none =>
        refine (leaves_acceptIf _).labels.seq fun whileKw => ?_
        cases whileKw with
        | some _ => exact ih.whileStatement held
        | none =>
          refine (leaves_acceptIf _).labels.seq fun brace => ?_
          cases brace with
          | some _ => exact (ih.block held).seq fun ds => labels_pure fun r => le_refl _
          | none => exact labels_expressionStatement n held

theorem labels_forStatement {n : Nat} (ih : LabelsStatements n) (held : List RefId) :
    Labels (forStatement (n + 1)) held fun d => held ++ d.refs := by
  unfold forStatement
  refine (leaves_expect _ _).labels.seq fun _ => (labels_forInit n held).seq fun init =>
    (labels_expressionUnless n _ _).seq fun cond => (leaves_expect _ _).labels.seq fun _ =>
      (labels_expressionUnless n _ _).seq fun step => (leaves_expect _ _).labels.seq fun _ =>
        (ih.statement _).seq fun body => labels_pure fun r => ?_
  rw [List.count_append, count_forLoop]
  simp only [List.count_append]
  omega

theorem labels_ifStatement {n : Nat} (ih : LabelsStatements n) (held : List RefId) :
    Labels (ifStatement (n + 1)) held fun d => held ++ d.refs := by
  unfold ifStatement
  refine (leaves_expect _ _).labels.seq fun _ =>
    ((labelsExpressions n).expression held).seq fun cond => (leaves_expect _ _).labels.seq fun _ =>
      (ih.statement _).seq fun thenDo => (leaves_acceptIf _).labels.seq fun elseKw => ?_
  cases elseKw with
  | some _ => exact (ih.statement _).seq fun elseDo => labels_pure fun r => by simp [Stmt.refs]
  | none => exact labels_pure fun r => by simp [Stmt.refs]

theorem labelsStatements : ∀ n, LabelsStatements n
  | 0 =>
    { declarations := fun _ _ => labels_exhausted
      declaration := fun _ => labels_exhausted
      classDeclaration := fun _ => labels_exhausted
      methods := fun _ => labels_exhausted
      function := fun _ _ => labels_exhausted
      block := fun _ => labels_exhausted
      statement := fun _ => labels_exhausted
      forStatement := fun _ => labels_exhausted
      ifStatement := fun _ => labels_exhausted
      whileStatement := fun _ => labels_exhausted }
  | n + 1 => by
    have ih := labelsStatements n
    refine ⟨labels_declarations ih, labels_declaration ih, fun held => ?_, labels_methods ih,
      labels_function ih, fun held => ?_, labels_statement ih, labels_forStatement ih,
      labels_ifStatement ih, fun held => ?_⟩
    · unfold classDeclaration
      refine (leaves_expect _ _).labels.seq fun name => (labels_superclass held).seq fun parent =>
        (leaves_nameAfter _ _).labels.seq fun interface => (leaves_expect _ _).labels.seq fun _ =>
          (ih.methods _).seq fun methods => (leaves_expect _ _).labels.seq fun _ =>
            labels_pure fun r => ?_
      simp [Stmt.refs, ClassDecl.refs]
    · unfold block
      exact (ih.declarations true held).seq fun ds => (leaves_expect _ _).labels.seq fun _ =>
        labels_pure fun r => le_refl _
    · unfold whileStatement
      refine (leaves_expect _ _).labels.seq fun _ =>
        ((labelsExpressions n).expression held).seq fun cond =>
          (leaves_expect _ _).labels.seq fun _ =>
            (ih.statement _).seq fun body => labels_pure fun r => ?_
      simp [Stmt.refs]

end Parser

/-- **The references of a parsed program have identities of their own**, none given before. -/
theorem parse_labels (tokens : List Token) (nextRef : RefId) :
    Fresh nextRef (parse tokens nextRef).nextRef (Stmt.refsAll (parse tokens nextRef).program) := by
  unfold parse
  split
  · exact Fresh.nil (le_refl _)
  · next first rest =>
    have hgrows := (Parser.grows_compatible.statementRules (le_refl _)).declarations
      (n := Parser.steps (first :: rest)) false ⟨first, first :: rest, nextRef, #[]⟩
    split
    · next program s h =>
      simpa using (Parser.labelsStatements _).declarations false [] h nextRef (Fresh.nil (le_refl _))
    · next e s h =>
      rw [h] at hgrows
      exact Fresh.nil (Parser.State.Before.nextRef hgrows)
    · exact Fresh.nil (le_refl _)

/-- Lists of tokens, parsed one after the other: each from the identity at which the one before has
stopped. Also yields the identity at which the last one stops. -/
def parseAll : List (List Token) → RefId → List (List Stmt) × RefId
  | [], nextRef => ([], nextRef)
  | tokens :: rest, nextRef =>
    let parsed := parse tokens nextRef
    let (programs, last) := parseAll rest parsed.nextRef
    (parsed.program :: programs, last)

/-- **The references of programs that are parsed one after the other have identities of their own**,
over all the programs. -/
theorem parseAll_labels (lists : List (List Token)) (nextRef : RefId) :
    Fresh nextRef (parseAll lists nextRef).2
      ((parseAll lists nextRef).1.flatMap Stmt.refsAll) := by
  induction lists generalizing nextRef with
  | nil => exact Fresh.nil (le_refl _)
  | cons tokens rest ih => exact (parse_labels tokens nextRef).append (ih _)

end Scriptlet
