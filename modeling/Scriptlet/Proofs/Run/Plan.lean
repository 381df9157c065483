import Scriptlet.Proofs.Run.Moment

/-!
# What a computation does

A computation performs operations, starts other computations and goes on with what they yield. `Plan`
is the tree of what it may do: one node for each operation and for each computation it starts, and a
branch for every value that it may go on with. Running the tree is running the computation
(`Task.run_eq`), and what it starts is what is started along its branches (`starts_iff`). So what
holds of all operations and is kept by sequencing holds of all computations, by induction on their
plans, with no case for each sort of expression or statement.

Only one operation writes: `Plan.log`. It stands alone in the plan of a call of the built-in function.

Results:
* `Task.run_eq`: a computation runs as its plan says, on the steps it grants.
* `starts_iff`: **what a computation starts is what its plan starts.**
* `mem_started`, `reaches_iff_mem`: what is started and what is reached can be listed.
* `Task.induction`: what is handed on from the computations that one starts holds of all.
* `Task.run_mono`, `Reaches.add`: with more steps a computation does what it does with fewer.
-/

namespace Scriptlet.Run

open Exec

/-- What a computation yields. -/
abbrev Task.Answer : Task → Type
  | .program _ | .write .. => Unit
  | .exec _ | .execAll _ | .loop .. => Flow
  | .eval _ | .apply .. | .call .. => Value
  | .evalAll _ => List Value

/-- What a computation does until it yields an `α`. -/
inductive Plan (α : Type) : Type 1
  | done (value : α) : Plan α
  /-- An operation, and then the rest. -/
  | operate {β : Type} (x : Exec β) (next : β → Plan α) : Plan α
  /-- Another computation, and then the rest. -/
  | use (t : Task) (next : t.Answer → Plan α) : Plan α
  /-- Another computation in a frame, and then the rest. -/
  | useIn (frame : FrameId) (t : Task) (next : t.Answer → Plan α) : Plan α
  /-- A line is written. -/
  | log (args : List Value) (site : Token) (value : α) : Plan α

/-- Statements go on after the first, unless it returns. -/
def Flow.plan (rest : Plan Flow) : Flow → Plan Flow
  | .normal => rest
  | .returned value => .done (.returned value)

/-- **What each computation does.** -/
def Task.plan (σ : Scoping) : (t : Task) → Plan t.Answer
  | .program [] => .done ()
  | .program (st :: ss) => .use (.exec st) fun _ => .use (.program ss) .done
  | .exec (.expr e) => .use (.eval e) fun _ => .done .normal
  | .exec (.declare name (some e)) =>
    .use (.eval e) fun v => .operate (define name.lexeme v) fun _ => .done .normal
  | .exec (.declare name none) => .operate (define name.lexeme .null) fun _ => .done .normal
  | .exec (.block body) =>
    .operate currentFrame fun outer => .operate (newFrame [] outer) fun frame =>
      .useIn frame (.execAll body) .done
  | .exec (.branch c t o) =>
    .use (.eval c) fun x =>
      if x.truthy then .use (.exec t) .done
      else match o with
        | some e => .use (.exec e) .done
        | none => .done .normal
  | .exec (.loop c b) => .use (.loop c b) .done
  | .exec (.function decl) =>
    .operate currentFrame fun frame => .operate (newFunction decl frame) fun f =>
      .operate (define decl.name.lexeme (.function f)) fun _ => .done .normal
  | .exec (.ret _ (some e)) => .use (.eval e) fun v => .done (.returned v)
  | .exec (.ret _ none) => .done (.returned .null)
  | .exec (.classDecl decl) => .operate (declareClass σ decl) fun _ => .done .normal
  | .execAll [] => .done .normal
  | .execAll (st :: ss) => .use (.exec st) (Flow.plan (.use (.execAll ss) .done))
  | .loop c b =>
    .use (.eval c) fun x =>
      if x.truthy then .use (.exec b) (Flow.plan (.use (.loop c b) .done)) else .done .normal
  | .eval (.literal value) => .done value.toValue
  | .eval (.group e) => .use (.eval e) .done
  | .eval (.unary op e) => .use (.eval e) fun x => .operate (ofOperator (x.unary op)) .done
  | .eval (.binary l op r) =>
    .use (.eval l) fun x => .use (.eval r) fun y => .operate (ofOperator (Value.binary op x y)) .done
  | .eval (.logical l op r) =>
    .use (.eval l) fun x => if x.truthy == op.is .pipePipe then .done x else .use (.eval r) .done
  | .eval (.var ref name) => .operate (readRef σ ref name) .done
  | .eval (.assign ref name e) =>
    .use (.eval e) fun v => .use (.write ref name e v) fun _ => .done v
  | .eval (.call e paren args) =>
    .use (.eval e) fun f => .use (.evalAll args) fun vs =>
      match f.arity? with
      | none => .operate (raise paren .notCallable) .done
      | some arity =>
        if vs.length = arity then .use (.apply f vs paren) .done
        else .operate (raise paren (.wrongArity arity vs.length)) .done
  | .eval (.get e name) => .use (.eval e) fun x => .operate (property x name) .done
  | .eval (.set o name e) =>
    .use (.eval o) fun
      | .object i =>
        .use (.eval e) fun v => .operate (setField i name.lexeme v) fun _ => .done v
      | _ => .operate (raise name .noFields) .done
  | .eval (.this ref keyword) => .operate (readRef σ ref keyword) .done
  | .eval (.super ref keyword method) => .operate (superMethod σ ref keyword method) .done
  | .evalAll [] => .done []
  | .evalAll (e :: es) => .use (.eval e) fun v => .use (.evalAll es) fun vs => .done (v :: vs)
  | .apply (.function f) args _ => .use (.call f args) .done
  | .apply (.native .log) args site => .log args site .null
  | .apply (.native .now) args site => .operate (callNative .now args site) .done
  | .apply (.cls c) args _ =>
    .operate (newInstance c) fun i =>
      match c.findMethod constructorName with
      | none => .done (.object i)
      | some method =>
        .operate (bindMethod method i) fun bound => .use (.call bound args) fun _ => .done (.object i)
  | .apply _ _ site => .operate (raise site .notCallable) .done
  | .call f args =>
    .operate (newFrame (.ofArguments f.decl.params args) f.frame) fun frame =>
      .useIn frame (.execAll f.decl.body) fun
        | .normal => .done .null
        | .returned value => .done value
  | .write ref name _ value => .operate (writeRef σ ref name value) .done

/-! ## Running a plan -/

/-- The line that a call of the built-in function writes. -/
def lineOf (m : Machine) (args : List Value) : String := (args.head?.map m.store.text).getD ""

/-- Runs a plan, given how the computations it starts are run. -/
def Plan.run {α : Type} (r : (t : Task) → Exec t.Answer) : Plan α → Exec α
  | .done value => pure value
  | .operate x next => x >>= fun v => (next v).run r
  | .use t next => r t >>= fun v => (next v).run r
  | .useIn frame t next => inFrame frame (r t) >>= fun v => (next v).run r
  | .log args site value => fun m => (writeLine (lineOf m args) site >>= fun _ => pure value) m

/-- Runs a computation on the steps it is granted. -/
def Task.run (σ : Scoping) (n : Nat) : (t : Task) → Exec t.Answer
  | .program ss => execProgram σ n ss
  | .exec st => Scriptlet.exec σ n st
  | .execAll ss => Scriptlet.execAll σ n ss
  | .loop c b => Scriptlet.loop σ n c b
  | .eval e => Scriptlet.eval σ n e
  | .evalAll es => Scriptlet.evalAll σ n es
  | .apply callee args site => Scriptlet.apply σ n callee args site
  | .call fn args => Scriptlet.call σ n fn args
  | .write ref name _ value => writeRef σ ref name value

/-- The steps that a computation grants those it starts, if it has any to grant. -/
def Task.grant : Nat → Task → Option Nat
  | n, .program _ | n, .write .. => some n
  | 0, _ => none
  | n + 1, _ => some n

section
variable {σ : Scoping} {n n' : Nat}

/-- The last thing that a computation starts yields what it yields itself. -/
theorem run_use_done (t : Task) : (Plan.use t .done).run (Task.run σ n) = t.run σ n :=
  bind_pure (t.run σ n)

theorem exec_eq (st : Stmt) :
    Scriptlet.exec σ (n + 1) st = ((Task.exec st).plan σ).run (Task.run σ n) := by
  unfold Scriptlet.exec
  cases st with
  | expr e => rfl
  | declare name init => cases init <;> rfl
  | block body =>
    refine congrArg (currentFrame >>= ·) (funext fun outer => ?_)
    exact congrArg (newFrame [] outer >>= ·) (funext fun frame => (bind_pure _).symm)
  | branch c t o =>
    refine congrArg (Scriptlet.eval σ n c >>= ·) (funext fun x => ?_)
    dsimp only
    split_ifs
    · exact (run_use_done (.exec t)).symm
    · cases o with
      | none => rfl
      | some e => exact (run_use_done (.exec e)).symm
  | loop c b => exact (run_use_done (.loop c b)).symm
  | function decl => rfl
  | ret keyword value => cases value <;> rfl
  | classDecl decl => rfl

theorem eval_eq (e : Expr) :
    Scriptlet.eval σ (n + 1) e = ((Task.eval e).plan σ).run (Task.run σ n) := by
  unfold Scriptlet.eval
  cases e with
  | literal value => rfl
  | group e => exact (run_use_done (.eval e)).symm
  | unary op e =>
    exact congrArg (Scriptlet.eval σ n e >>= ·) (funext fun x => (bind_pure _).symm)
  | binary l op r =>
    refine congrArg (Scriptlet.eval σ n l >>= ·) (funext fun x => ?_)
    exact congrArg (Scriptlet.eval σ n r >>= ·) (funext fun y => (bind_pure _).symm)
  | logical l op r =>
    refine congrArg (Scriptlet.eval σ n l >>= ·) (funext fun x => ?_)
    dsimp only
    split_ifs
    · rfl
    · exact (run_use_done (.eval r)).symm
  | var ref name => exact (bind_pure _).symm
  | assign ref name e => rfl
  | call e paren args =>
    refine congrArg (Scriptlet.eval σ n e >>= ·) (funext fun f => ?_)
    refine congrArg (Scriptlet.evalAll σ n args >>= ·) (funext fun vs => ?_)
    dsimp only
    cases f.arity? with
    | none => rfl
    | some arity =>
      dsimp only
      split_ifs
      · exact (run_use_done (.apply f vs paren)).symm
      · rfl
  | get e name =>
    exact congrArg (Scriptlet.eval σ n e >>= ·) (funext fun x => (bind_pure _).symm)
  | set o name e =>
    refine congrArg (Scriptlet.eval σ n o >>= ·) (funext fun x => ?_)
    cases x <;> rfl
  | this ref keyword => exact (bind_pure _).symm
  | super ref keyword method => exact (bind_pure _).symm

/-- Statements after the first, run as planned. -/
theorem bind_flow (x : Exec Flow) (rest : Exec Flow) (plan : Plan Flow)
    (h : rest = plan.run (Task.run σ n)) :
    (x >>= fun
      | .normal => rest
      | .returned value => pure (.returned value)) =
      x >>= fun flow => (Flow.plan plan flow).run (Task.run σ n) := by
  refine congrArg (x >>= ·) (funext fun flow => ?_)
  cases flow with
  | normal => exact h
  | returned value => rfl

theorem loop_eq (c : Expr) (b : Stmt) :
    Scriptlet.loop σ (n + 1) c b = ((Task.loop c b).plan σ).run (Task.run σ n) := by
  unfold Scriptlet.loop
  refine congrArg (Scriptlet.eval σ n c >>= ·) (funext fun x => ?_)
  dsimp only
  split_ifs
  · exact bind_flow _ _ _ (run_use_done (.loop c b)).symm
  · rfl

theorem apply_eq (callee : Value) (args : List Value) (site : Token) :
    Scriptlet.apply σ (n + 1) callee args site =
      ((Task.apply callee args site).plan σ).run (Task.run σ n) := by
  unfold Scriptlet.apply
  cases callee with
  | function f => exact (run_use_done (.call f args)).symm
  | native f => cases f <;> rfl
  | cls c =>
    refine congrArg (newInstance c >>= ·) (funext fun i => ?_)
    cases c.findMethod constructorName <;> rfl
  | _ => rfl

theorem call_eq (f : Function) (args : List Value) :
    Scriptlet.call σ (n + 1) f args = ((Task.call f args).plan σ).run (Task.run σ n) := by
  unfold Scriptlet.call
  refine congrArg (newFrame _ _ >>= ·) (funext fun frame => ?_)
  refine congrArg (inFrame frame _ >>= ·) (funext fun flow => ?_)
  cases flow <;> rfl

/-- **A computation runs as its plan says**, or not at all when it has no steps to grant. -/
theorem Task.run_eq (σ : Scoping) (n : Nat) (t : Task) :
    t.run σ n =
      match t.grant n with
      | some n' => (t.plan σ).run (Task.run σ n')
      | none => exhausted := by
  cases t with
  | program ss =>
    cases ss with
    | nil => rfl
    | cons st ss =>
      exact congrArg (Scriptlet.exec σ n st >>= ·)
        (funext fun _ => (run_use_done (.program ss)).symm)
  | write ref name e value => exact (bind_pure (writeRef σ ref name value)).symm
  | exec st =>
    cases n with
    | zero => rfl
    | succ n => exact exec_eq st
  | execAll ss =>
    cases n with
    | zero => rfl
    | succ n =>
      cases ss with
      | nil => rfl
      | cons st ss => exact bind_flow _ _ _ (run_use_done (.execAll ss)).symm
  | loop c b =>
    cases n with
    | zero => rfl
    | succ n => exact loop_eq c b
  | eval e =>
    cases n with
    | zero => rfl
    | succ n => exact eval_eq e
  | evalAll es =>
    cases n with
    | zero => rfl
    | succ n => cases es <;> rfl
  | apply callee args site =>
    cases n with
    | zero => rfl
    | succ n => exact apply_eq callee args site
  | call f args =>
    cases n with
    | zero => rfl
    | succ n => exact call_eq f args

end

/-! ## What a plan starts -/

/-- Along the plan, with what has been yielded on the way, `t` is started on `m'`. -/
def Plan.Starts {α : Type} (r : (t : Task) → Exec t.Answer) :
    Plan α → Machine → Task → Machine → Prop
  | .done _, _, _, _ => False
  | .operate x next, m, t, m' => ∃ v m₁, x m = .ok v m₁ ∧ (next v).Starts r m₁ t m'
  | .use u next, m, t, m' =>
    (t = u ∧ m' = m) ∨ ∃ v m₁, r u m = .ok v m₁ ∧ (next v).Starts r m₁ t m'
  | .useIn frame u next, m, t, m' =>
    (t = u ∧ m' = { m with current := frame }) ∨
      ∃ v m₁, inFrame frame (r u) m = .ok v m₁ ∧ (next v).Starts r m₁ t m'
  | .log .., _, _, _ => False

section
variable {σ : Scoping} {n n' : Nat} {t t' : Task} {m m' : Machine}

theorem Starts.plan {a b : Moment} (h : Starts σ a b) :
    a.task.grant a.steps = some b.steps ∧
      (a.task.plan σ).Starts (Task.run σ b.steps) a.machine b.task b.machine := by
  cases h with
  | firstOfProgram | evaluated | init | condition | looping | returned | firstStmt | loopCondition
  | group | operand | left | leftLogical | assigned | callee | object | setObject | firstExpr
  | called => exact ⟨rfl, .inl ⟨rfl, rfl⟩⟩
  | restOfProgram h | otherStmts h | right h | write h | arguments h | setValue h | otherExprs h =>
    exact ⟨rfl, .inr ⟨_, _, h, .inl ⟨rfl, rfl⟩⟩⟩
  | block h => exact ⟨rfl, _, _, rfl, _, _, h, .inl ⟨rfl, rfl⟩⟩
  | body h => exact ⟨rfl, _, _, h, .inl ⟨rfl, rfl⟩⟩
  | thenDo h hx =>
    refine ⟨rfl, .inr ⟨_, _, h, ?_⟩⟩
    dsimp only
    rw [if_pos hx]
    exact .inl ⟨rfl, rfl⟩
  | elseDo h hx | rightLogical h hx =>
    refine ⟨rfl, .inr ⟨_, _, h, ?_⟩⟩
    dsimp only
    rw [if_neg (by simp [hx])]
    exact .inl ⟨rfl, rfl⟩
  | loopBody h hx =>
    refine ⟨rfl, .inr ⟨_, _, h, ?_⟩⟩
    dsimp only
    rw [if_pos hx]
    exact .inl ⟨rfl, rfl⟩
  | loopAgain h hx h' =>
    refine ⟨rfl, .inr ⟨_, _, h, ?_⟩⟩
    dsimp only
    rw [if_pos hx]
    exact .inr ⟨_, _, h', .inl ⟨rfl, rfl⟩⟩
  | applied h h' harity =>
    refine ⟨rfl, .inr ⟨_, _, h, .inr ⟨_, _, h', ?_⟩⟩⟩
    simp only [harity, if_true]
    exact .inl ⟨rfl, rfl⟩
  | constructed h hmethod h' =>
    refine ⟨rfl, _, _, h, ?_⟩
    simp only [hmethod]
    exact ⟨_, _, h', .inl ⟨rfl, rfl⟩⟩

theorem starts_exec {st : Stmt} (h : ((Task.exec st).plan σ).Starts (Task.run σ n) m t' m') :
    Starts σ ⟨n + 1, .exec st, m⟩ ⟨n, t', m'⟩ := by
  cases st with
  | expr e =>
    rcases h with ⟨rfl, rfl⟩ | ⟨_, _, _, h⟩
    · exact .evaluated
    · exact h.elim
  | declare name init =>
    cases init with
    | none =>
      obtain ⟨_, _, _, h⟩ := h
      exact h.elim
    | some e =>
      rcases h with ⟨rfl, rfl⟩ | ⟨_, _, _, _, _, _, h⟩
      · exact .init
      · exact h.elim
  | block body =>
    obtain ⟨_, _, hcurrent, frame, m₁, hframe, h⟩ := h
    cases hcurrent
    rcases h with ⟨rfl, rfl⟩ | ⟨_, _, _, h⟩
    · exact .block hframe
    · exact h.elim
  | branch c t o =>
    rcases h with ⟨rfl, rfl⟩ | ⟨x, m₁, hx, h⟩
    · exact .condition
    · dsimp only at h
      split_ifs at h with htruthy
      · rcases h with ⟨rfl, rfl⟩ | ⟨_, _, _, h⟩
        · exact .thenDo hx htruthy
        · exact h.elim
      · cases o with
        | none => exact h.elim
        | some e =>
          rcases h with ⟨rfl, rfl⟩ | ⟨_, _, _, h⟩
          · exact .elseDo hx (Bool.eq_false_iff.mpr htruthy)
          · exact h.elim
  | loop c b =>
    rcases h with ⟨rfl, rfl⟩ | ⟨_, _, _, h⟩
    · exact .looping
    · exact h.elim
  | function decl =>
    obtain ⟨_, _, _, _, _, _, _, _, _, h⟩ := h
    exact h.elim
  | ret keyword value =>
    cases value with
    | none => exact h.elim
    | some e =>
      rcases h with ⟨rfl, rfl⟩ | ⟨_, _, _, h⟩
      · exact .returned
      · exact h.elim
  | classDecl decl =>
    obtain ⟨_, _, _, h⟩ := h
    exact h.elim

theorem starts_eval {e : Expr} (h : ((Task.eval e).plan σ).Starts (Task.run σ n) m t' m') :
    Starts σ ⟨n + 1, .eval e, m⟩ ⟨n, t', m'⟩ := by
  cases e with
  | literal value => exact h.elim
  | group e =>
    rcases h with ⟨rfl, rfl⟩ | ⟨_, _, _, h⟩
    · exact .group
    · exact h.elim
  | unary op e =>
    rcases h with ⟨rfl, rfl⟩ | ⟨_, _, _, _, _, _, h⟩
    · exact .operand
    · exact h.elim
  | binary l op r =>
    rcases h with ⟨rfl, rfl⟩ | ⟨_, _, hx, ⟨rfl, rfl⟩ | ⟨_, _, _, _, _, _, h⟩⟩
    · exact .left
    · exact .right hx
    · exact h.elim
  | logical l op r =>
    rcases h with ⟨rfl, rfl⟩ | ⟨x, m₁, hx, h⟩
    · exact .leftLogical
    · dsimp only at h
      split_ifs at h with hop
      · exact h.elim
      · rcases h with ⟨rfl, rfl⟩ | ⟨_, _, _, h⟩
        · exact .rightLogical hx (Bool.eq_false_iff.mpr hop)
        · exact h.elim
  | var ref name =>
    obtain ⟨_, _, _, h⟩ := h
    exact h.elim
  | assign ref name e =>
    rcases h with ⟨rfl, rfl⟩ | ⟨_, _, hv, ⟨rfl, rfl⟩ | ⟨_, _, _, h⟩⟩
    · exact .assigned
    · exact .write hv
    · exact h.elim
  | call e paren args =>
    rcases h with ⟨rfl, rfl⟩ | ⟨f, m₁, hf, ⟨rfl, rfl⟩ | ⟨vs, m₂, hvs, h⟩⟩
    · exact .callee
    · exact .arguments hf
    · cases harity : f.arity? with
      | none =>
        simp only [harity] at h
        obtain ⟨_, _, _, h⟩ := h
        exact h.elim
      | some arity =>
        simp only [harity] at h
        split_ifs at h with hlength
        · rcases h with ⟨rfl, rfl⟩ | ⟨_, _, _, h⟩
          · exact .applied hf hvs (by rw [harity, hlength])
          · exact h.elim
        · obtain ⟨_, _, _, h⟩ := h
          exact h.elim
  | get e name =>
    rcases h with ⟨rfl, rfl⟩ | ⟨_, _, _, _, _, _, h⟩
    · exact .object
    · exact h.elim
  | set o name e =>
    rcases h with ⟨rfl, rfl⟩ | ⟨x, m₁, hx, h⟩
    · exact .setObject
    · cases x with
      | object i =>
        rcases h with ⟨rfl, rfl⟩ | ⟨_, _, _, _, _, _, h⟩
        · exact .setValue hx
        · exact h.elim
      | _ =>
        obtain ⟨_, _, _, h⟩ := h
        exact h.elim
  | this ref keyword =>
    obtain ⟨_, _, _, h⟩ := h
    exact h.elim
  | super ref keyword method =>
    obtain ⟨_, _, _, h⟩ := h
    exact h.elim

theorem starts_loop {c : Expr} {b : Stmt}
    (h : ((Task.loop c b).plan σ).Starts (Task.run σ n) m t' m') :
    Starts σ ⟨n + 1, .loop c b, m⟩ ⟨n, t', m'⟩ := by
  rcases h with ⟨rfl, rfl⟩ | ⟨x, m₁, hx, h⟩
  · exact .loopCondition
  · dsimp only at h
    split_ifs at h with htruthy
    · rcases h with ⟨rfl, rfl⟩ | ⟨flow, m₂, hflow, h⟩
      · exact .loopBody hx htruthy
      · cases flow with
        | normal =>
          rcases h with ⟨rfl, rfl⟩ | ⟨_, _, _, h⟩
          · exact .loopAgain hx htruthy hflow
          · exact h.elim
        | returned value => exact h.elim
    · exact h.elim

theorem starts_apply {callee : Value} {args : List Value} {site : Token}
    (h : ((Task.apply callee args site).plan σ).Starts (Task.run σ n) m t' m') :
    Starts σ ⟨n + 1, .apply callee args site, m⟩ ⟨n, t', m'⟩ := by
  cases callee with
  | function f =>
    rcases h with ⟨rfl, rfl⟩ | ⟨_, _, _, h⟩
    · exact .called
    · exact h.elim
  | native f =>
    cases f with
    | log => exact h.elim
    | now =>
      obtain ⟨_, _, _, h⟩ := h
      exact h.elim
  | cls c =>
    obtain ⟨i, m₁, hi, h⟩ := h
    cases hfound : c.findMethod constructorName with
    | none =>
      simp only [hfound] at h
      exact h.elim
    | some method =>
      simp only [hfound] at h
      rcases h with ⟨bound, m₂, hbound, ⟨rfl, rfl⟩ | ⟨_, _, _, h⟩⟩
      · exact .constructed hi hfound hbound
      · exact h.elim
  | _ =>
    obtain ⟨_, _, _, h⟩ := h
    exact h.elim

/-- **What a computation starts is what its plan starts.** -/
theorem starts_iff :
    Starts σ ⟨n, t, m⟩ ⟨n', t', m'⟩ ↔
      t.grant n = some n' ∧ (t.plan σ).Starts (Task.run σ n') m t' m' := by
  refine ⟨Starts.plan, fun ⟨hgrant, h⟩ => ?_⟩
  cases t with
  | program ss =>
    cases hgrant
    cases ss with
    | nil => exact h.elim
    | cons st ss =>
      rcases h with ⟨rfl, rfl⟩ | ⟨_, _, hst, ⟨rfl, rfl⟩ | ⟨_, _, _, h⟩⟩
      · exact .firstOfProgram
      · exact .restOfProgram hst
      · exact h.elim
  | write ref name e value =>
    obtain ⟨_, _, _, h⟩ := h
    exact h.elim
  | exec st =>
    cases n with
    | zero => cases hgrant
    | succ n =>
      cases hgrant
      exact starts_exec h
  | execAll ss =>
    cases n with
    | zero => cases hgrant
    | succ n =>
      cases hgrant
      cases ss with
      | nil => exact h.elim
      | cons st ss =>
        rcases h with ⟨rfl, rfl⟩ | ⟨flow, m₁, hflow, h⟩
        · exact .firstStmt
        · cases flow with
          | normal =>
            rcases h with ⟨rfl, rfl⟩ | ⟨_, _, _, h⟩
            · exact .otherStmts hflow
            · exact h.elim
          | returned value => exact h.elim
  | loop c b =>
    cases n with
    | zero => cases hgrant
    | succ n =>
      cases hgrant
      exact starts_loop h
  | eval e =>
    cases n with
    | zero => cases hgrant
    | succ n =>
      cases hgrant
      exact starts_eval h
  | evalAll es =>
    cases n with
    | zero => cases hgrant
    | succ n =>
      cases hgrant
      cases es with
      | nil => exact h.elim
      | cons e es =>
        rcases h with ⟨rfl, rfl⟩ | ⟨_, _, hv, ⟨rfl, rfl⟩ | ⟨_, _, _, h⟩⟩
        · exact .firstExpr
        · exact .otherExprs hv
        · exact h.elim
  | apply callee args site =>
    cases n with
    | zero => cases hgrant
    | succ n =>
      cases hgrant
      exact starts_apply h
  | call f args =>
    cases n with
    | zero => cases hgrant
    | succ n =>
      cases hgrant
      obtain ⟨frame, m₁, hframe, h⟩ := h
      rcases h with ⟨rfl, rfl⟩ | ⟨flow, _, _, h⟩
      · exact .body hframe
      · cases flow <;> exact h.elim

end

/-! ## The order in which computations are started -/

/-- What is started along the plan, in this order. -/
def Plan.started {α : Type} (r : (t : Task) → Exec t.Answer) :
    Plan α → Machine → List (Task × Machine)
  | .done _, _ => []
  | .operate x next, m =>
    match x m with
    | .ok v m₁ => (next v).started r m₁
    | _ => []
  | .use t next, m =>
    (t, m) :: match r t m with
      | .ok v m₁ => (next v).started r m₁
      | _ => []
  | .useIn frame t next, m =>
    (t, { m with current := frame }) :: match inFrame frame (r t) m with
      | .ok v m₁ => (next v).started r m₁
      | _ => []
  | .log .., _ => []

/-- **What a computation starts, in this order.** -/
def Moment.started (σ : Scoping) (a : Moment) : List Moment :=
  match a.task.grant a.steps with
  | some n => ((a.task.plan σ).started (Task.run σ n) a.machine).map fun b => ⟨n, b.1, b.2⟩
  | none => []

section
variable {σ : Scoping} {r : (t : Task) → Exec t.Answer} {a b c : Moment} {m m' : Machine} {t : Task}

theorem Plan.mem_started {α : Type} {p : Plan α} :
    (t, m') ∈ p.started r m ↔ p.Starts r m t m' := by
  induction p generalizing m with
  | done _ | log => exact List.mem_nil_iff _
  | operate x next ih =>
    unfold Plan.started Plan.Starts
    cases hx : x m with
    | ok v m₁ => simp [ih]
    | _ => simp
  | use u next ih =>
    unfold Plan.started Plan.Starts
    rw [List.mem_cons, Prod.mk.injEq]
    cases hu : r u m with
    | ok v m₁ => simp [ih]
    | _ => simp
  | useIn frame u next ih =>
    unfold Plan.started Plan.Starts
    rw [List.mem_cons, Prod.mk.injEq]
    cases hu : inFrame frame (r u) m with
    | ok v m₁ => simp [ih]
    | _ => simp

/-- What a computation starts, in order, is what it `Starts`. -/
theorem mem_started : b ∈ a.started σ ↔ Starts σ a b := by
  obtain ⟨n, t, m⟩ := a
  obtain ⟨n', t', m'⟩ := b
  rw [starts_iff, Moment.started]
  cases hgrant : t.grant n with
  | none => simp
  | some k =>
    simp only [List.mem_map, Moment.mk.injEq, Option.some.injEq]
    constructor
    · rintro ⟨⟨t₁, m₁⟩, hmem, rfl, rfl, rfl⟩
      exact ⟨rfl, Plan.mem_started.mp hmem⟩
    · rintro ⟨rfl, h⟩
      exact ⟨(t', m'), Plan.mem_started.mpr h, rfl, rfl, rfl⟩

/-- The moments reached with at most `depth` starts, each before those it leads to. -/
def Moment.reached (σ : Scoping) : Nat → Moment → List Moment
  | 0, a => [a]
  | depth + 1, a => a :: (a.started σ).flatMap (Moment.reached σ depth)

/-- **What is reached can be listed**, up to the number of starts that lead to it. -/
theorem reaches_iff_mem : Reaches σ a b ↔ ∃ depth, b ∈ a.reached σ depth := by
  constructor
  · intro h
    induction h using Relation.ReflTransGen.head_induction_on with
    | refl => exact ⟨0, List.mem_singleton_self b⟩
    | head hstarts _ ih =>
      obtain ⟨depth, hmem⟩ := ih
      exact ⟨depth + 1, .tail _ (List.mem_flatMap.mpr ⟨_, mem_started.mpr hstarts, hmem⟩)⟩
  · rintro ⟨depth, h⟩
    induction depth generalizing a with
    | zero =>
      obtain rfl := List.mem_singleton.mp h
      exact .refl
    | succ depth ih =>
      rcases List.mem_cons.mp h with rfl | h
      · exact .refl
      · obtain ⟨c, hc, hb⟩ := List.mem_flatMap.mp h
        exact .head (mem_started.mp hc) (ih hb)

end

/-! ## Induction -/

/-- The computation may be started along the plan, whatever is yielded on the way. -/
def Plan.Uses {α : Type} : Plan α → Task → Prop
  | .done _, _ => False
  | .operate _ next, t => ∃ v, (next v).Uses t
  | .use u next, t => t = u ∨ ∃ v, (next v).Uses t
  | .useIn _ u next, t => t = u ∨ ∃ v, (next v).Uses t
  | .log .., _ => False

theorem Plan.Starts.uses {α : Type} {r : (t : Task) → Exec t.Answer} {p : Plan α} {m m' : Machine}
    {t : Task} (h : p.Starts r m t m') : p.Uses t := by
  induction p generalizing m with
  | done _ | log => exact h.elim
  | operate x next ih =>
    obtain ⟨v, m₁, -, h⟩ := h
    exact ⟨v, ih v h⟩
  | use u next ih | useIn frame u next ih =>
    rcases h with ⟨rfl, -⟩ | ⟨v, m₁, -, h⟩
    · exact .inl rfl
    · exact .inr ⟨v, ih v h⟩

/-- **What holds of a computation if it holds of all that it may start holds of all computations.**
Steps are used up, except from one statement of a program to the next. -/
theorem Task.induction (σ : Scoping) {P : Nat → Task → Prop}
    (h : ∀ n t, (∀ n' t', t.grant n = some n' → (t.plan σ).Uses t' → P n' t') → P n t)
    (n : Nat) (t : Task) : P n t := by
  have programs (n : Nat) (hexec : ∀ st, P n (.exec st)) (ss : List Stmt) : P n (.program ss) := by
    induction ss with
    | nil => exact h n _ fun _ _ _ huse => huse.elim
    | cons st ss ih =>
      refine h n _ fun n' t' hgrant huse => ?_
      cases hgrant
      rcases huse with rfl | ⟨_, rfl | ⟨_, huse⟩⟩
      · exact hexec st
      · exact ih
      · exact huse.elim
  induction n generalizing t with
  | zero =>
    cases t with
    | program ss => exact programs 0 (fun st => h 0 _ fun _ _ hgrant => by cases hgrant) ss
    | write ref name e value => exact h 0 _ fun _ _ _ ⟨_, huse⟩ => huse.elim
    | _ => exact h 0 _ fun _ _ hgrant => by cases hgrant
  | succ n ih =>
    cases t with
    | program ss =>
      refine programs (n + 1) (fun st => h _ _ fun n' t' hgrant _ => ?_) ss
      cases hgrant
      exact ih t'
    | write ref name e value => exact h _ _ fun _ _ _ ⟨_, huse⟩ => huse.elim
    | _ =>
      refine h _ _ fun n' t' hgrant _ => ?_
      cases hgrant
      exact ih t'

/-! ## More steps -/

/-- The first result is an exhaustion or the second. -/
def Refines {α : Type} (r r' : Result α) : Prop := r = .exhausted ∨ r = r'

theorem Refines.of_ne {α : Type} {r r' : Result α} (h : Refines r r') (hr : r ≠ .exhausted) :
    r' = r := (h.resolve_left hr).symm

theorem Refines.bind {α β : Type} {x y : Exec α} {f g : α → Exec β} {m : Machine}
    (hxy : Refines (x m) (y m)) (hfg : ∀ v m', Refines (f v m') (g v m')) :
    Refines ((x >>= f) m) ((y >>= g) m) := by
  change Refines (Exec.bind x f m) (Exec.bind y g m)
  unfold Exec.bind
  rcases hxy with hx | hxy
  · exact .inl (by rw [hx])
  · rw [hxy]
    cases y m with
    | ok v m' => exact hfg v m'
    | fault f m' => exact .inr rfl
    | exhausted => exact .inr rfl

theorem Refines.inFrame {α : Type} {x y : Exec α} {frame : FrameId} {m : Machine}
    (h : Refines (x { m with current := frame }) (y { m with current := frame })) :
    Refines (inFrame frame x m) (inFrame frame y m) := by
  unfold Exec.inFrame
  rcases h with hx | hxy
  · exact .inl (by simp only [hx])
  · exact .inr (by simp only [hxy])

section
variable {α : Type} {r r' : (t : Task) → Exec t.Answer} {p : Plan α} {m m' : Machine} {t : Task}

theorem Plan.run_refines (h : ∀ t, p.Uses t → ∀ m, Refines (r t m) (r' t m)) (m : Machine) :
    Refines (p.run r m) (p.run r' m) := by
  induction p generalizing m with
  | done _ | log => exact .inr rfl
  | operate x next ih =>
    exact .bind (.inr rfl) fun v m' => ih v (fun t ht => h t ⟨v, ht⟩) m'
  | use u next ih =>
    exact .bind (h u (.inl rfl) m) fun v m' => ih v (fun t ht => h t (.inr ⟨v, ht⟩)) m'
  | useIn frame u next ih =>
    refine .bind (.inFrame (h u (.inl rfl) _)) fun v m' => ?_
    exact ih v (fun t ht => h t (.inr ⟨v, ht⟩)) m'

theorem Plan.Starts.refines (h : ∀ t, p.Uses t → ∀ m, Refines (r t m) (r' t m))
    (hstarts : p.Starts r m t m') : p.Starts r' m t m' := by
  induction p generalizing m with
  | done _ | log => exact hstarts.elim
  | operate x next ih =>
    obtain ⟨v, m₁, hx, hrest⟩ := hstarts
    exact ⟨v, m₁, hx, ih v (fun t ht => h t ⟨v, ht⟩) hrest⟩
  | use u next ih =>
    rcases hstarts with hhere | ⟨v, m₁, hv, hrest⟩
    · exact .inl hhere
    · have hv' := ((h u (.inl rfl) m).of_ne (by simp [hv])).trans hv
      exact .inr ⟨v, m₁, hv', ih v (fun t ht => h t (.inr ⟨v, ht⟩)) hrest⟩
  | useIn frame u next ih =>
    rcases hstarts with hhere | ⟨v, m₁, hv, hrest⟩
    · exact .inl hhere
    · have hv' := ((Refines.inFrame (h u (.inl rfl) _)).of_ne (by simp [hv])).trans hv
      exact .inr ⟨v, m₁, hv', ih v (fun t ht => h t (.inr ⟨v, ht⟩)) hrest⟩

end

section
variable {σ : Scoping} {n n' k : Nat} {t t' : Task} {m m' : Machine}

theorem Task.grant_add (h : t.grant n = some n') (j : Nat) : t.grant (n + j) = some (n' + j) := by
  cases t with
  | program | write =>
    cases h
    rfl
  | _ =>
    cases n with
    | zero => cases h
    | succ n =>
      cases h
      rw [Nat.succ_add]
      rfl

/-- **With more steps a computation ends as it does with fewer.** -/
theorem Task.run_mono (σ : Scoping) (hle : n ≤ k) (t : Task) (m : Machine) :
    Refines (t.run σ n m) (t.run σ k m) := by
  obtain ⟨j, rfl⟩ := Nat.exists_eq_add_of_le hle
  clear hle
  induction n, t using Task.induction σ generalizing m with
  | h n t ih =>
    rw [Task.run_eq σ n t, Task.run_eq σ (n + j) t]
    cases hgrant : t.grant n with
    | none => exact .inl rfl
    | some n' =>
      simp only [Task.grant_add hgrant j]
      exact Plan.run_refines (fun t' ht' m => ih n' t' hgrant ht' m) m

/-- What is reached is reached with more steps, and has more of them. -/
theorem Reaches.add (h : Reaches σ ⟨n, t, m⟩ ⟨n', t', m'⟩) (j : Nat) :
    Reaches σ ⟨n + j, t, m⟩ ⟨n' + j, t', m'⟩ := by
  generalize hb : Moment.mk n' t' m' = b at h
  induction h generalizing n' t' m' with
  | refl =>
    cases hb
    exact .refl
  | @tail c _ _ hstep ih =>
    subst hb
    obtain ⟨hgrant, hstarts⟩ := starts_iff.mp hstep
    refine (ih rfl).tail (starts_iff.mpr ⟨Task.grant_add hgrant j, ?_⟩)
    exact hstarts.refines fun t _ m => Task.run_mono σ (Nat.le_add_right _ j) t m

end

end Scriptlet.Run
