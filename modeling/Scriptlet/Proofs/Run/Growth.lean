import Scriptlet.Proofs.Run.Confinement
import Scriptlet.Proofs.Run.Moment

/-!
# The store only grows

In a run, from the start of a computation to its end and through everything in between, frames and
instances are only added, names and fields only bound, and links and classes stay (`Store.Grows`).
Nothing is asked of the program, the distances or the machine.

A run passes from machine to machine (`Leads`): a computation starts another one, the one that was
started ends and the one that started it goes on, an operation is performed. A state of a run that
comes after another one is reached from it by such steps (`Later`).

The second half hands the invariant of `Ownership` on to every computation that is started, so that it
holds at every moment of a run.

Results:
* `Starts.ready`, `Reaches.ready`: **the invariant holds at every moment of a run.**
* `Starts.resumes`: a computation that ends lets the one that started it go on.
* `Reaches.later`, `Reaches.later_end`: all of a run lies between its start and its end.
* `Later.grows`: **the store only grows.**
-/

namespace Scriptlet

/-- The machine at the end of a computation, if it ends. -/
def Result.machine? {α : Type} : Result α → Option Machine
  | .ok _ m => some m
  | .fault _ m => some m
  | .exhausted => none

namespace Run

open Exec

variable {O : Origin} {σ : Scoping} {m m' : Machine} {n : Nat} {a b : Moment}

/-- The machine at the end of the computation, if it ends within its steps. -/
def Moment.end? (σ : Scoping) (a : Moment) : Option Machine :=
  match a.task with
  | .program ss => (execProgram σ a.steps ss a.machine).machine?
  | .exec st => (exec σ a.steps st a.machine).machine?
  | .execAll ss => (execAll σ a.steps ss a.machine).machine?
  | .loop c b => (loop σ a.steps c b a.machine).machine?
  | .eval e => (eval σ a.steps e a.machine).machine?
  | .evalAll es => (evalAll σ a.steps es a.machine).machine?
  | .apply callee args site => (apply σ a.steps callee args site a.machine).machine?
  | .call fn args => (call σ a.steps fn args a.machine).machine?
  | .write ref name _ v => (writeRef σ ref name v a.machine).machine?

/-! ## The invariant at every moment -/

section
variable {α : Type} {r : Result α} {Q : Extent → α → Prop}

theorem Confined.proceeds (h : Confined O m r Q) (hr : r.machine? = some m') : Proceeds O m m' := by
  cases r with
  | ok x m₁ =>
    cases hr
    exact h.1
  | fault f m₁ =>
    cases hr
    exact h
  | exhausted => cases hr

theorem Confined.of_ok {x : α} (h : Confined O m r Q) (hr : r = .ok x m') :
    Proceeds O m m' ∧ Q m'.extent x := by
  rw [hr] at h
  exact h

end

theorem Inside.eval {e : Expr} {v : Value} (h : Inside O m) (hr : eval σ n e m = .ok v m') :
    Proceeds O m m' ∧ OwnsValue O m'.extent v := ((confining O σ n).eval h e).of_ok hr

theorem Inside.exec {st : Stmt} {flow : Flow} (h : Inside O m) (hr : exec σ n st m = .ok flow m') :
    Inside O m' := h.after (((confining O σ n).exec h st).of_ok hr).1

theorem Inside.confined_execProgram (ss : List Stmt) (h : Inside O m) :
    Confined O m (execProgram σ n ss m) (fun _ _ => True) := by
  induction ss generalizing m with
  | nil => exact .pure h trivial
  | cons st ss ih => exact ((confining O σ n).exec h st).bind fun _ _ h₁ _ => ih (h.after h₁)

/-- The values that a computation is given are owned. -/
def TaskOwned (O : Origin) (n : Extent) : Task → Prop
  | .apply callee args _ => OwnsValue O n callee ∧ OwnsAll O n args
  | .call fn args => OwnsValue O n (.function fn) ∧ OwnsAll O n args
  | .write _ _ _ v => OwnsValue O n v
  | _ => True

/-- **The computation is about to start inside what is owned.** -/
structure Ready (O : Origin) (a : Moment) : Prop where
  inside : Inside O a.machine
  task : TaskOwned O a.machine.extent a.task

/-- The invariant holds at the end of a computation. -/
theorem Ready.ends (h : Ready O a) (hend : a.end? σ = some m') : Proceeds O a.machine m' := by
  obtain ⟨n, task, m⟩ := a
  obtain ⟨hin, htask⟩ := h
  have hconfining := confining O σ n
  cases task with
  | program ss => exact (hin.confined_execProgram ss).proceeds hend
  | exec st => exact (hconfining.exec hin st).proceeds hend
  | execAll ss => exact (hconfining.execAll hin ss).proceeds hend
  | loop c b => exact (hconfining.loop hin c b).proceeds hend
  | eval e => exact (hconfining.eval hin e).proceeds hend
  | evalAll es => exact (hconfining.evalAll hin es).proceeds hend
  | apply callee args site =>
    exact (hconfining.apply hin htask.1 htask.2 site).proceeds hend
  | call fn args => exact (hconfining.call hin htask.1 htask.2).proceeds hend
  | write ref name e v => exact (hin.confined_writeRef ref name htask).proceeds hend

/-- **The invariant is handed on to every computation that is started.** -/
theorem Starts.ready (h : Starts σ a b) (ha : Ready O a) : Ready O b := by
  obtain ⟨hin, htask⟩ := ha
  cases h with
  | firstOfProgram | evaluated | init | condition | looping | returned | firstStmt
  | loopCondition | group | operand | left | leftLogical | assigned | callee | object
  | setObject | firstExpr => exact ⟨hin, trivial⟩
  | restOfProgram h | otherStmts h => exact ⟨hin.exec h, trivial⟩
  | thenDo h _ | elseDo h _ | loopBody h _ | right h | rightLogical h _ | arguments h
  | setValue h | otherExprs h => exact ⟨hin.after (hin.eval h).1, trivial⟩
  | loopAgain h _ h' => exact ⟨(hin.after (hin.eval h).1).exec h', trivial⟩
  | write h => exact ⟨hin.after (hin.eval h).1, (hin.eval h).2⟩
  | @applied n e paren args m f m' vs m'' h h' harity =>
    obtain ⟨h₁, hf⟩ := hin.eval h
    obtain ⟨h₂, hvs⟩ := ((confining O σ n).evalAll (hin.after h₁) args).of_ok h'
    exact ⟨(hin.after h₁).after h₂, hf.mono h₂.extent, hvs⟩
  | called => exact ⟨hin, htask⟩
  | constructed h hmethod h' =>
    obtain ⟨hc, hargs⟩ := htask
    obtain ⟨h₁, hi⟩ := (hin.confined_newInstance hc).of_ok h
    have hmethod' := (show OwnsValue O _ _ from hc.mono h₁.extent).findMethod hmethod
    obtain ⟨h₂, hbound⟩ := ((hin.after h₁).confined_bindMethod hmethod' hi).of_ok h'
    exact ⟨(hin.after h₁).after h₂, hbound, hargs.mono (h₁.trans h₂).extent⟩
  | block h =>
    obtain ⟨h₁, hframe⟩ := (hin.confined_newFrame hin.current owned_none).of_ok h
    exact ⟨h₁.enter hframe, trivial⟩
  | body h =>
    obtain ⟨hfn, hargs⟩ := htask
    obtain ⟨h₁, hframe⟩ := (hin.confined_newFrame hfn.closure (owned_arguments hargs)).of_ok h
    exact ⟨h₁.enter hframe, trivial⟩

/-- **The invariant holds at every moment of a run.** -/
theorem Reaches.ready (h : Reaches σ a b) (ha : Ready O a) : Ready O b := by
  induction h with
  | refl => exact ha
  | tail _ hstep ih => exact hstep.ready ih

/-- A state inside a computation, between the operations that change the store. -/
inductive Midway (σ : Scoping) : Moment → Machine → Prop
  /-- The name of a class is bound to `null`. -/
  | named {n decl m parent m₁ m₂} (h : readParent σ decl.superclass m = .ok parent m₁)
      (h' : define decl.name.lexeme .null m₁ = .ok () m₂) :
    Midway σ ⟨n + 1, .exec (.classDecl decl), m⟩ m₂
  /-- The class is there, but its name is not bound to it. -/
  | made {n decl m made m₁} (h : makeClass σ decl m = .ok made m₁) :
    Midway σ ⟨n + 1, .exec (.classDecl decl), m⟩ m₁
  /-- The instance is there, but its constructor has not been called. -/
  | instantiated {n c args site m i m₁} (h : newInstance c m = .ok i m₁) :
    Midway σ ⟨n + 1, .apply (.cls c) args site, m⟩ m₁

theorem Midway.inside (h : Midway σ a m') (ha : Ready O a) : Inside O m' := by
  obtain ⟨hin, htask⟩ := ha
  cases h with
  | @named n decl m parent m₁ m₂ h h' =>
    have hin₁ := hin.after ((hin.confined_readParent decl.superclass).of_ok h).1
    have hnull : OwnsValue O m₁.extent .null := .plain trivial
    exact hin₁.after ((hin₁.confined_define decl.name.lexeme hnull).of_ok h').1
  | @made n decl m made m₁ h => exact hin.after ((hin.confined_makeClass decl).of_ok h).1
  | instantiated h => exact hin.after ((hin.confined_newInstance htask.1).of_ok h).1

/-! ## Growth -/

/-- A run that may get hold of anything. -/
def Origin.all (m : Machine) : Origin := ⟨m.store, m.nextId, fun _ => True, trivial⟩

theorem owned_all (n : Extent) (it : Item) : Owned (.all m) n it := .before ⟨it, trivial, .refl⟩

theorem inside_all (m : Machine) : Inside (.all m) m := ⟨.start _, owned_all _ _⟩

theorem ready_all (a : Moment) : Ready (.all a.machine) a := by
  obtain ⟨n, task, m⟩ := a
  refine ⟨inside_all m, ?_⟩
  cases task with
  | apply callee args site => exact ⟨owned_all _ _, fun _ _ => owned_all _ _⟩
  | call fn args => exact ⟨owned_all _ _, fun _ _ => owned_all _ _⟩
  | write ref name e v => exact owned_all _ _
  | _ => trivial

/-- **From the start of a computation to its end the store grows.** -/
theorem Moment.grows (a : Moment) (hend : a.end? σ = some m') : a.machine.store.Grows m'.store :=
  ((ready_all a).ends hend).confines.grows

/-- So it does up to the start of a computation that is used. -/
theorem Starts.grows (h : Starts σ a b) : a.machine.store.Grows b.machine.store :=
  (h.ready (ready_all a)).inside.confines.grows

/-- Whatever the computation starts on, the store grows. -/
def Growing {α : Type} (x : Exec α) : Prop :=
  ∀ ⦃m m' : Machine⦄, (x m).machine? = some m' → m.store.Grows m'.store

section
variable {α β : Type} {x : Exec α} {f : α → Exec β}

theorem growing_of_confined {Q : Machine → Extent → α → Prop}
    (h : ∀ m, Confined (.all m) m (x m) (Q m)) : Growing x :=
  fun m _ hr => ((h m).proceeds hr).confines.grows

/-- If one computation after the other ends, then the first has ended before, and the store has grown
since. -/
theorem Growing.resumes (hf : ∀ y, Growing (f y)) (hr : ((x >>= f) m).machine? = some m') :
    ∃ m₁, (x m).machine? = some m₁ ∧ m₁.store.Grows m'.store := by
  change (Exec.bind x f m).machine? = _ at hr
  unfold Exec.bind at hr
  cases hx : x m with
  | ok y m₁ =>
    rw [hx] at hr
    exact ⟨m₁, rfl, hf y hr⟩
  | fault f m₁ =>
    rw [hx] at hr
    cases hr
    exact ⟨_, rfl, .refl _⟩
  | exhausted =>
    rw [hx] at hr
    cases hr

theorem Growing.bind (hx : Growing x) (hf : ∀ y, Growing (f y)) : Growing (x >>= f) := by
  intro m m' hr
  obtain ⟨m₁, h₁, hgrows⟩ := Growing.resumes hf hr
  exact (hx h₁).trans hgrows

theorem growing_pure (y : α) : Growing (pure y : Exec α) := by
  intro m m' hr
  cases hr
  exact .refl _

theorem growing_raise (site : Token) (cause : Cause) : Growing (raise site cause : Exec α) := by
  intro m m' hr
  cases hr
  exact .refl _

/-- What runs in another frame has ended when the frame is left. -/
theorem end_of_inFrame {frame : FrameId} (hr : (inFrame frame x m).machine? = some m') :
    ∃ m₁, (x { m with current := frame }).machine? = some m₁ ∧ m₁.store = m'.store := by
  unfold inFrame at hr
  cases hx : x { m with current := frame } with
  | ok y m₁ =>
    simp only [hx] at hr
    cases hr
    exact ⟨m₁, rfl, rfl⟩
  | fault f m₁ =>
    simp only [hx] at hr
    cases hr
    exact ⟨m₁, rfl, rfl⟩
  | exhausted =>
    simp only [hx] at hr
    cases hr

end

section
variable (σ : Scoping) (n : Nat)

theorem growing_eval (e : Expr) : Growing (eval σ n e) := fun m _ => Moment.grows ⟨n, .eval e, m⟩

theorem growing_evalAll (es : List Expr) : Growing (evalAll σ n es) :=
  fun m _ => Moment.grows ⟨n, .evalAll es, m⟩

theorem growing_exec (st : Stmt) : Growing (exec σ n st) := fun m _ => Moment.grows ⟨n, .exec st, m⟩

theorem growing_execAll (ss : List Stmt) : Growing (execAll σ n ss) :=
  fun m _ => Moment.grows ⟨n, .execAll ss, m⟩

theorem growing_loop (c : Expr) (b : Stmt) : Growing (loop σ n c b) :=
  fun m _ => Moment.grows ⟨n, .loop c b, m⟩

theorem growing_apply (f : Value) (vs : List Value) (site : Token) :
    Growing (apply σ n f vs site) := fun m _ => Moment.grows ⟨n, .apply f vs site, m⟩

theorem growing_execProgram (ss : List Stmt) : Growing (execProgram σ n ss) :=
  fun m _ => Moment.grows ⟨n, .program ss, m⟩

theorem growing_writeRef (ref : RefId) (name : Token) (v : Value) :
    Growing (writeRef σ ref name v) :=
  growing_of_confined fun m => (inside_all m).confined_writeRef ref name (owned_all _ _)

theorem growing_define (name : String) (v : Value) : Growing (define name v) :=
  growing_of_confined fun m => (inside_all m).confined_define name (owned_all _ _)

theorem growing_setField (i : InstanceId) (name : String) (v : Value) :
    Growing (setField i name v) :=
  growing_of_confined fun m =>
    (inside_all m).confined_setField name (owned_all _ _) (owned_all _ _)

theorem growing_property (v : Value) (name : Token) : Growing (property v name) :=
  growing_of_confined fun m => (inside_all m).confined_property name (owned_all _ _)

theorem growing_ofOperator (r : Except Fault Value) : Growing (ofOperator r) := by
  intro m m' hr
  cases r <;> cases hr <;> exact .refl _

/-- Statements go on after the first, unless it returns. -/
theorem growing_flow {x : Exec Flow} (hx : Growing x) (flow : Flow) :
    Growing (match flow with
      | .normal => x
      | .returned v => pure (.returned v)) := by
  cases flow with
  | normal => exact hx
  | returned v => exact growing_pure _

/-- What is left of a call when the function and the arguments are there. -/
theorem growing_application (f : Value) (vs : List Value) (site : Token) :
    Growing (match f.arity? with
      | none => raise site .notCallable
      | some arity =>
        if vs.length = arity then apply σ n f vs site
        else raise site (.wrongArity arity vs.length)) := by
  cases f.arity? with
  | none => exact growing_raise _ _
  | some arity =>
    dsimp only
    split_ifs
    · exact growing_apply σ n f vs site
    · exact growing_raise _ _

end

/-- **A computation that has ended lets the one that used it go on**, and the store grows up to the end
of that one. -/
theorem Starts.resumes (h : Starts σ a b) (ha : a.end? σ = some m') :
    ∃ m₁, b.end? σ = some m₁ ∧ m₁.store.Grows m'.store := by
  cases h with
  | @firstOfProgram n st ss m =>
    exact Growing.resumes (x := exec σ n st) (fun _ => growing_execProgram σ n ss) ha
  | @restOfProgram n st ss m flow m₁ h =>
    change ((exec σ n st >>= fun _ => execProgram σ n ss) m).machine? = _ at ha
    rw [bind_of_ok h] at ha
    exact ⟨_, ha, .refl _⟩
  | @evaluated n e m => exact Growing.resumes (x := eval σ n e) (fun _ => growing_pure _) ha
  | @init n name e m =>
    exact Growing.resumes (x := eval σ n e)
      (fun v => (growing_define _ v).bind fun _ => growing_pure _) ha
  | @block n body m frame m₁ h =>
    cases h
    obtain ⟨m₂, h₂, heq⟩ := end_of_inFrame (x := execAll σ n body) ha
    exact ⟨m₂, h₂, heq ▸ .refl _⟩
  | @condition n c t o m =>
    refine Growing.resumes (x := eval σ n c) (fun x => ?_) ha
    split_ifs
    · exact growing_exec σ n t
    · cases o with
      | none => exact growing_pure _
      | some st => exact growing_exec σ n st
  | @thenDo n c t o m x m₁ h hx =>
    change ((eval σ n c >>= fun x => if x.truthy then exec σ n t else _) m).machine? = _ at ha
    rw [bind_of_ok h, if_pos hx] at ha
    exact ⟨_, ha, .refl _⟩
  | @elseDo n c t e m x m₁ h hx =>
    change ((eval σ n c >>= fun x => if x.truthy then exec σ n t else _) m).machine? = _ at ha
    rw [bind_of_ok h, if_neg (by simp [hx])] at ha
    exact ⟨_, ha, .refl _⟩
  | looping => exact ⟨_, ha, .refl _⟩
  | @returned n k e m => exact Growing.resumes (x := eval σ n e) (fun _ => growing_pure _) ha
  | @firstStmt n st ss m =>
    exact Growing.resumes (x := exec σ n st) (growing_flow (growing_execAll σ n ss)) ha
  | @otherStmts n st ss m m₁ h =>
    change ((exec σ n st >>= fun flow => _) m).machine? = _ at ha
    rw [bind_of_ok h] at ha
    exact ⟨_, ha, .refl _⟩
  | @loopCondition n c b m =>
    refine Growing.resumes (x := eval σ n c) (fun x => ?_) ha
    split_ifs
    · exact (growing_exec σ n b).bind (growing_flow (growing_loop σ n c b))
    · exact growing_pure _
  | @loopBody n c b m x m₁ h hx =>
    change ((eval σ n c >>= fun x => if x.truthy then _ else _) m).machine? = _ at ha
    rw [bind_of_ok h, if_pos hx] at ha
    exact Growing.resumes (x := exec σ n b) (growing_flow (growing_loop σ n c b)) ha
  | @loopAgain n c b m x m₁ m₂ h hx h' =>
    change ((eval σ n c >>= fun x => if x.truthy then exec σ n b >>= _ else _) m).machine? = _ at ha
    rw [bind_of_ok h, if_pos hx, bind_of_ok h'] at ha
    exact ⟨_, ha, .refl _⟩
  | group => exact ⟨_, ha, .refl _⟩
  | @operand n op e m =>
    exact Growing.resumes (x := eval σ n e) (fun _ => growing_ofOperator _) ha
  | @left n l op r m =>
    exact Growing.resumes (x := eval σ n l)
      (fun _ => (growing_eval σ n r).bind fun _ => growing_ofOperator _) ha
  | @right n l op r m x m₁ h =>
    change ((eval σ n l >>= fun x => eval σ n r >>= _) m).machine? = _ at ha
    rw [bind_of_ok h] at ha
    exact Growing.resumes (x := eval σ n r) (fun _ => growing_ofOperator _) ha
  | @leftLogical n l op r m =>
    refine Growing.resumes (x := eval σ n l) (fun x => ?_) ha
    split_ifs
    · exact growing_pure _
    · exact growing_eval σ n r
  | @rightLogical n l op r m x m₁ h hx =>
    change ((eval σ n l >>= fun x => if x.truthy == op.is .pipePipe then _ else _) m).machine? = _
      at ha
    rw [bind_of_ok h, if_neg (by simp [hx])] at ha
    exact ⟨_, ha, .refl _⟩
  | @assigned n ref name e m =>
    exact Growing.resumes (x := eval σ n e)
      (fun v => (growing_writeRef σ ref name v).bind fun _ => growing_pure _) ha
  | @write n ref name e m v m₁ h =>
    change ((eval σ n e >>= fun v => writeRef σ ref name v >>= _) m).machine? = _ at ha
    rw [bind_of_ok h] at ha
    exact Growing.resumes (x := writeRef σ ref name v) (fun _ => growing_pure _) ha
  | @callee n e paren args m =>
    exact Growing.resumes (x := eval σ n e)
      (fun f => (growing_evalAll σ n args).bind fun vs => growing_application σ n f vs paren) ha
  | @arguments n e paren args m f m₁ h =>
    change ((eval σ n e >>= fun f => evalAll σ n args >>= _) m).machine? = _ at ha
    rw [bind_of_ok h] at ha
    exact Growing.resumes (x := evalAll σ n args) (fun vs => growing_application σ n f vs paren) ha
  | @applied n e paren args m f m₁ vs m₂ h h' harity =>
    change ((eval σ n e >>= fun f => evalAll σ n args >>= _) m).machine? = _ at ha
    rw [bind_of_ok h, bind_of_ok h'] at ha
    simp only [harity, if_true] at ha
    exact ⟨_, ha, .refl _⟩
  | @object n e name m =>
    exact Growing.resumes (x := eval σ n e) (fun v => growing_property v name) ha
  | @setObject n o name e m =>
    refine Growing.resumes (x := eval σ n o) (fun x => ?_) ha
    cases x with
    | object i =>
      exact (growing_eval σ n e).bind fun v => (growing_setField i _ v).bind fun _ => growing_pure _
    | _ => exact growing_raise _ _
  | @setValue n o name e m i m₁ h =>
    change ((eval σ n o >>= fun x => _) m).machine? = _ at ha
    rw [bind_of_ok h] at ha
    exact Growing.resumes (x := eval σ n e)
      (fun v => (growing_setField i _ v).bind fun _ => growing_pure _) ha
  | @firstExpr n e es m =>
    exact Growing.resumes (x := eval σ n e)
      (fun _ => (growing_evalAll σ n es).bind fun _ => growing_pure _) ha
  | @otherExprs n e es m v m₁ h =>
    change ((eval σ n e >>= fun v => evalAll σ n es >>= _) m).machine? = _ at ha
    rw [bind_of_ok h] at ha
    exact Growing.resumes (x := evalAll σ n es) (fun _ => growing_pure _) ha
  | called => exact ⟨_, ha, .refl _⟩
  | @constructed n c args site m i m₁ method bound m₂ h hmethod h' =>
    change ((newInstance c >>= fun i => _) m).machine? = _ at ha
    rw [bind_of_ok h] at ha
    simp only [hmethod] at ha
    rw [bind_of_ok h'] at ha
    exact Growing.resumes (x := call σ n bound args) (fun _ => growing_pure _) ha
  | @body n f args m frame m₁ h =>
    change ((newFrame _ _ >>= fun frame => inFrame frame (execAll σ n f.decl.body) >>= _) m).machine?
      = _ at ha
    rw [bind_of_ok h] at ha
    obtain ⟨m₂, h₂, hgrows⟩ := Growing.resumes (fun flow => by
      cases flow <;> exact growing_pure _) ha
    obtain ⟨m₃, h₃, heq⟩ := end_of_inFrame h₂
    exact ⟨m₃, h₃, heq ▸ hgrows⟩

/-! ## Later states -/

/-- The operations that change the store, whatever they are given. -/
inductive Operation : {α : Type} → Exec α → Prop
  | define (name : String) (v : Value) : Operation (define name v)
  | assign (frame : Option FrameId) (name : Token) (v : Value) : Operation (assignIn frame name v)
  | newFrame (bs : Bindings) (e : FrameId) : Operation (newFrame bs e)
  | newInstance (c : Class) : Operation (newInstance c)
  | setField (i : InstanceId) (name : String) (v : Value) : Operation (setField i name v)

theorem Operation.growing {α : Type} {x : Exec α} (h : Operation x) : Growing x := by
  cases h with
  | define name v => exact growing_define name v
  | assign frame name v =>
    exact growing_of_confined fun m =>
      (inside_all m).confined_assignIn (fun _ _ => owned_all _ _) (owned_all _ _)
  | newFrame bs e =>
    exact growing_of_confined fun m =>
      (inside_all m).confined_newFrame (owned_all _ _) fun _ _ _ => owned_all _ _
  | newInstance c =>
    exact growing_of_confined fun m => (inside_all m).confined_newInstance (owned_all _ _)
  | setField i name v => exact growing_setField i name v

/-- **A run passes from one machine to the next.** There may be more such passages than those of actual
runs, since the programs, the distances and the machines are not restricted. -/
inductive Leads : Machine → Machine → Prop
  /-- A computation starts another one. -/
  | starts {σ : Scoping} {a b : Moment} (h : Starts σ a b) : Leads a.machine b.machine
  /-- A computation runs to its end. -/
  | ends {σ : Scoping} {a : Moment} {m' : Machine} (h : a.end? σ = some m') : Leads a.machine m'
  /-- A computation has ended, and the one that started it runs to its end. -/
  | resumes {σ : Scoping} {a b : Moment} {m m' : Machine} (h : Starts σ a b)
      (hb : b.end? σ = some m) (ha : a.end? σ = some m') : Leads m m'
  /-- An operation is performed. -/
  | operates {α : Type} {x : Exec α} {m m' : Machine} (hx : Operation x)
      (h : (x m).machine? = some m') : Leads m m'
  /-- Nothing happens to the store. -/
  | idles {m m' : Machine} (h : m'.store = m.store) : Leads m m'

/-- A run passes from one machine to another in any number of steps. -/
def Later : Machine → Machine → Prop := Relation.ReflTransGen Leads

/-- A moment of a run comes after its start. -/
theorem Reaches.later (h : Reaches σ a b) : Later a.machine b.machine := by
  induction h with
  | refl => exact .refl
  | tail _ hstep ih => exact ih.tail (.starts hstep)

/-- It comes before the end of the run, and so does the end of its own computation. -/
theorem Reaches.later_end (h : Reaches σ a b) (ha : a.end? σ = some m') :
    ∃ m₁, b.end? σ = some m₁ ∧ Later m₁ m' := by
  induction h with
  | refl => exact ⟨m', ha, .refl⟩
  | tail _ hstep ih =>
    obtain ⟨m₂, h₂, hlater⟩ := ih
    obtain ⟨m₁, h₁, -⟩ := hstep.resumes h₂
    exact ⟨m₁, h₁, hlater.head (.resumes hstep h₁ h₂)⟩

theorem Leads.grows (h : Leads m m') : m.store.Grows m'.store := by
  cases h with
  | starts h => exact h.grows
  | ends h => exact Moment.grows _ h
  | resumes h hb ha =>
    obtain ⟨m₁, h₁, hgrows⟩ := h.resumes ha
    cases hb.symm.trans h₁
    exact hgrows
  | operates hx h => exact hx.growing h
  | idles h => exact h ▸ .refl _

/-- **The store only grows.** -/
theorem Later.grows (h : Later m m') : m.store.Grows m'.store := by
  induction h with
  | refl => exact .refl _
  | tail _ hstep ih => exact ih.trans hstep.grows

end Run

end Scriptlet
