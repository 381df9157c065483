import Scriptlet.Proofs.Run.Confined

/-!
# Private state is confined

What a program cannot reach, it cannot change. Whatever statement or expression is run on whatever
machine, however it ends: a frame or an instance that could not be reached from the current or the
global frame is as it was before, and what can be reached afterwards, from the result or from these
frames, could be reached before or has been made since. So a frame that only a closure knows belongs to
that closure: two counters made by one function count each for itself.

The proof goes by induction on the steps that are granted, for all kinds of computations at once
(`Confining`), with one lemma for each kind. Nothing is asked of the program, the distances or the
machine.

Results:
* `confining`: **every computation is confined to what it owns.**
* `private_state_confined`: what that means for what can and cannot be reached.
-/

namespace Scriptlet.Run

open Exec

variable {O : Origin} {σ : Scoping} {m m' : Machine} {n : Nat}

/-! ## Every computation -/

/-- **What computations are confined to when they are granted `n` steps.** -/
structure Confining (O : Origin) (σ : Scoping) (n : Nat) : Prop where
  eval {m : Machine} (h : Inside O m) (e : Expr) : Confined O m (eval σ n e m) (OwnsValue O)
  evalAll {m : Machine} (h : Inside O m) (es : List Expr) :
    Confined O m (evalAll σ n es m) (OwnsAll O)
  apply {m : Machine} {callee : Value} {args : List Value} (h : Inside O m)
    (hcallee : OwnsValue O m.extent callee) (hargs : OwnsAll O m.extent args)
    (site : Token) : Confined O m (apply σ n callee args site m) (OwnsValue O)
  call {m : Machine} {fn : Function} {args : List Value} (h : Inside O m)
    (hfn : OwnsValue O m.extent (.function fn)) (hargs : OwnsAll O m.extent args) :
    Confined O m (call σ n fn args m) (OwnsValue O)
  exec {m : Machine} (h : Inside O m) (st : Stmt) : Confined O m (exec σ n st m) (OwnsFlow O)
  execAll {m : Machine} (h : Inside O m) (ss : List Stmt) :
    Confined O m (execAll σ n ss m) (OwnsFlow O)
  loop {m : Machine} (h : Inside O m) (cond : Expr) (body : Stmt) :
    Confined O m (loop σ n cond body m) (OwnsFlow O)

namespace Confining

theorem eval_succ (ih : Confining O σ n) (h : Inside O m) (e : Expr) :
    Confined O m (Scriptlet.eval σ (n + 1) e m) (OwnsValue O) := by
  cases e with
  | literal value => exact .pure h (.plain (by cases value <;> trivial))
  | group inner => exact ih.eval h inner
  | unary op operand =>
    refine (ih.eval h operand).bind fun x m₁ h₁ _ => ?_
    exact (h.after h₁).confined_ofOperator fun _ => isPlain_unary
  | binary l op r =>
    refine (ih.eval h l).bind fun x m₁ h₁ _ => ?_
    refine (ih.eval (h.after h₁) r).bind fun y m₂ h₂ _ => ?_
    exact ((h.after h₁).after h₂).confined_ofOperator fun _ => isPlain_binary
  | logical l op r =>
    refine (ih.eval h l).bind fun x m₁ h₁ hx => ?_
    split_ifs
    · exact .pure (h.after h₁) hx
    · exact ih.eval (h.after h₁) r
  | var ref name => exact h.confined_readRef ref name
  | assign ref name e =>
    refine (ih.eval h e).bind fun v m₁ h₁ hv => ?_
    refine ((h.after h₁).confined_writeRef ref name hv).bind fun _ m₂ h₂ _ => ?_
    exact .pure ((h.after h₁).after h₂) (hv.mono h₂.extent)
  | call callee paren args =>
    refine (ih.eval h callee).bind fun f m₁ h₁ hf => ?_
    refine (ih.evalAll (h.after h₁) args).bind fun values m₂ h₂ hvalues => ?_
    have hin := (h.after h₁).after h₂
    cases f.arity? with
    | none => exact hin.refl
    | some arity =>
      dsimp only
      split_ifs
      · exact ih.apply hin (hf.mono h₂.extent) hvalues paren
      · exact hin.refl
  | get object name =>
    refine (ih.eval h object).bind fun x m₁ h₁ hx => ?_
    exact (h.after h₁).confined_property name hx
  | set object name value =>
    refine (ih.eval h object).bind fun x m₁ h₁ hx => ?_
    cases x with
    | object i =>
      refine (ih.eval (h.after h₁) value).bind fun v m₂ h₂ hv => ?_
      have hin := (h.after h₁).after h₂
      refine (hin.confined_setField name.lexeme (hx.mono h₂.extent) hv).bind fun _ m₃ h₃ _ => ?_
      exact .pure (hin.after h₃) (hv.mono h₃.extent)
    | _ => exact (h.after h₁).refl
  | this ref keyword => exact h.confined_readRef ref keyword
  | super ref keyword method => exact h.confined_superMethod ref keyword method

theorem evalAll_succ (ih : Confining O σ n) (h : Inside O m) (es : List Expr) :
    Confined O m (Scriptlet.evalAll σ (n + 1) es m) (OwnsAll O) := by
  cases es with
  | nil => exact .pure h nofun
  | cons e es =>
    refine (ih.eval h e).bind fun v m₁ h₁ hv => ?_
    refine (ih.evalAll (h.after h₁) es).bind fun vs m₂ h₂ hvs => ?_
    exact .pure ((h.after h₁).after h₂) (List.forall_mem_cons.mpr ⟨hv.mono h₂.extent, hvs⟩)

theorem apply_succ (ih : Confining O σ n) {callee : Value} {args : List Value} (h : Inside O m)
    (hcallee : OwnsValue O m.extent callee) (hargs : OwnsAll O m.extent args) (site : Token) :
    Confined O m (Scriptlet.apply σ (n + 1) callee args site m) (OwnsValue O) := by
  cases callee with
  | function fn => exact ih.call h hcallee hargs
  | native f => exact h.confined_callNative f args site
  | cls c =>
    refine (h.confined_newInstance hcallee).bind fun i m₁ h₁ hi => ?_
    have hin₁ := h.after h₁
    cases hmethod : c.findMethod constructorName with
    | none => exact .pure hin₁ hi
    | some method =>
      have hc : OwnsValue O m₁.extent (.cls c) := hcallee.mono h₁.extent
      refine (hin₁.confined_bindMethod (hc.findMethod hmethod) hi).bind
        fun bound m₂ h₂ hbound => ?_
      have hin₂ := hin₁.after h₂
      refine (ih.call hin₂ hbound (hargs.mono (h₁.trans h₂).extent)).bind fun _ m₃ h₃ _ => ?_
      exact .pure (hin₂.after h₃) (hi.mono (h₂.trans h₃).extent)
  | _ => exact h.refl

/-- The body of a function runs in a new frame inside the one it was made in. -/
theorem call_succ (ih : Confining O σ n) {fn : Function} {args : List Value} (h : Inside O m)
    (hfn : OwnsValue O m.extent (.function fn)) (hargs : OwnsAll O m.extent args) :
    Confined O m (Scriptlet.call σ (n + 1) fn args m) (OwnsValue O) := by
  refine (h.confined_newFrame hfn.closure (owned_arguments hargs)).bind
    fun frame m₁ h₁ hframe => ?_
  refine (Confined.inFrame (ih.execAll (h₁.enter hframe) fn.decl.body)).bind
    fun flow m₂ h₂ hflow => ?_
  have hin := (h.after h₁).after h₂
  cases flow with
  | normal => exact .pure hin (.plain trivial)
  | returned v => exact .pure hin hflow

theorem exec_succ (ih : Confining O σ n) (h : Inside O m) (st : Stmt) :
    Confined O m (Scriptlet.exec σ (n + 1) st m) (OwnsFlow O) := by
  cases st with
  | expr e => exact (ih.eval h e).bind fun _ _ h₁ _ => .pure (h.after h₁) trivial
  | declare name init =>
    cases init with
    | none =>
      have hnull : OwnsValue O m.extent .null := .plain trivial
      exact (h.confined_define name.lexeme hnull).bind fun _ _ h₁ _ => .pure (h.after h₁) trivial
    | some e =>
      refine (ih.eval h e).bind fun v m₁ h₁ hv => ?_
      refine ((h.after h₁).confined_define name.lexeme hv).bind fun _ m₂ h₂ _ => ?_
      exact .pure ((h.after h₁).after h₂) trivial
  | block body =>
    show Confined O m ((newFrame [] m.current >>= fun f =>
      inFrame f (Scriptlet.execAll σ n body)) m) _
    refine (h.confined_newFrame h.current owned_none).bind fun frame m₁ h₁ hframe => ?_
    exact .inFrame (ih.execAll (h₁.enter hframe) body)
  | branch cond thenDo elseDo =>
    refine (ih.eval h cond).bind fun x m₁ h₁ _ => ?_
    split_ifs
    · exact ih.exec (h.after h₁) thenDo
    · cases elseDo with
      | none => exact .pure (h.after h₁) trivial
      | some st => exact ih.exec (h.after h₁) st
  | loop cond body => exact ih.loop h cond body
  | function decl =>
    show Confined O m ((newFunction decl m.current >>= fun fn => do
      define decl.name.lexeme (.function fn)
      return Flow.normal) m) _
    refine (h.confined_newFunction decl h.current).bind fun fn m₁ h₁ hfn => ?_
    refine ((h.after h₁).confined_define _ hfn).bind fun _ m₂ h₂ _ => ?_
    exact .pure ((h.after h₁).after h₂) trivial
  | ret keyword value =>
    cases value with
    | none => exact .pure h (.plain trivial)
    | some e => exact .map h (ih.eval h e) fun _ _ hv => hv
  | classDecl decl =>
    exact (h.confined_declareClass decl).bind fun _ _ h₁ _ => .pure (h.after h₁) trivial

theorem execAll_succ (ih : Confining O σ n) (h : Inside O m) (ss : List Stmt) :
    Confined O m (Scriptlet.execAll σ (n + 1) ss m) (OwnsFlow O) := by
  cases ss with
  | nil => exact .pure h trivial
  | cons st ss =>
    refine (ih.exec h st).bind fun flow m₁ h₁ hflow => ?_
    cases flow with
    | normal => exact ih.execAll (h.after h₁) ss
    | returned v => exact .pure (h.after h₁) hflow

theorem loop_succ (ih : Confining O σ n) (h : Inside O m) (cond : Expr) (body : Stmt) :
    Confined O m (Scriptlet.loop σ (n + 1) cond body m) (OwnsFlow O) := by
  refine (ih.eval h cond).bind fun x m₁ h₁ _ => ?_
  have hin₁ := h.after h₁
  split_ifs
  · refine (ih.exec hin₁ body).bind fun flow m₂ h₂ hflow => ?_
    cases flow with
    | normal => exact ih.loop (hin₁.after h₂) cond body
    | returned v => exact .pure (hin₁.after h₂) hflow
  · exact .pure hin₁ trivial

end Confining

/-- **Every computation is confined to what it owns.** -/
theorem confining (O : Origin) (σ : Scoping) (n : Nat) : Confining O σ n := by
  induction n with
  | zero => constructor <;> intros <;> trivial
  | succ n ih =>
    exact ⟨fun h => ih.eval_succ h, fun h => ih.evalAll_succ h,
      fun h hcallee hargs => ih.apply_succ h hcallee hargs,
      fun h hfn hargs => ih.call_succ h hfn hargs, fun h => ih.exec_succ h,
      fun h => ih.execAll_succ h, fun h => ih.loop_succ h⟩

/-! ## What can be reached -/

/-- At the beginning there are only the global frame and the built-in modules. -/
theorem builtin_of_reachable {s : Store}
    (hglobal : s.frames[Store.global]? = Store.initial.frames[Store.global]?) {it : Item}
    (h : ReachableFrom s (· = .frame Store.global) it) :
    it = .frame Store.global ∨ (∃ l, it = .value (.library l)) ∨ ∃ f, it = .value (.native f) := by
  obtain ⟨root, rfl, hpath⟩ := h
  induction hpath with
  | refl => exact .inl rfl
  | tail _ hlink ih =>
    obtain rfl | ⟨l, rfl⟩ | ⟨f, rfl⟩ := ih
    · cases hlink with
      | enclosing heq =>
        rw [Store.enclosing?, hglobal] at heq
        cases heq
      | bound heq =>
        rw [Store.get?, hglobal] at heq
        refine .inr (.inl ?_)
        change Bindings.get? [(_, .library .console), (_, .library .date)] _ = _ at heq
        simp only [Bindings.get?_cons, Bindings.get?_nil] at heq
        split_ifs at heq <;> cases heq <;> exact ⟨_, rfl⟩
    · cases hlink with
      | library _ => exact .inr (.inr ⟨_, rfl⟩)
    · cases hlink

/-- Where all that a running program can get hold of is found from. -/
def rootsOf (m : Machine) (it : Item) : Prop := it = .frame m.current ∨ it = .frame Store.global

/-- What a program that runs on the machine can reach. -/
def Reachable (m : Machine) : Item → Prop := ReachableFrom m.store (rootsOf m)

/-- Frames, functions, classes, instances and built-in modules, but no plain values. -/
def Item.IsObject : Item → Prop
  | .frame _ => True
  | .value v => ¬ v.IsPlain

/-- An object that has been made between one machine and another. -/
def Created (m m' : Machine) : Item → Prop
  | .frame f => m.store.frames.size ≤ f ∧ f < m'.store.frames.size
  | .value (.object i) => m.store.instances.size ≤ i ∧ i < m'.store.instances.size
  | .value (.function fn) => m.nextId ≤ fn.id ∧ fn.id < m'.nextId
  | .value (.cls c) => m.nextId ≤ c.id ∧ c.id < m'.nextId
  | .value _ => False

/-- **What could not be reached is unchanged, and what can be reached could be or is new.** The run has
led from one machine to another, and there may be a value as a result. -/
structure Respects (m m' : Machine) (result : Option Value) : Prop where
  frame {f} (hold : f < m.store.frames.size) (h : ¬ Reachable m (.frame f)) :
    m'.store.frames[f]? = m.store.frames[f]?
  object {i} (hold : i < m.store.instances.size) (h : ¬ Reachable m (.value (.object i))) :
    m'.store.instances[i]? = m.store.instances[i]?
  reached {it : Item} (hit : it.IsObject)
    (h : ReachableFrom m'.store (fun root => rootsOf m' root ∨ ∃ v ∈ result, root = .value v) it) :
    Reachable m it ∨ Created m m' it

/-- A run that begins on a machine, with all that can be reached from there. -/
def Origin.of (m : Machine) : Origin := ⟨m.store, m.nextId, rootsOf m, .inr rfl⟩

theorem inside_of (m : Machine) : Inside (.of m) m :=
  ⟨.start (.of m), .before ⟨_, .inl rfl, .refl⟩⟩

/-- An object that is owned could be reached or has been made. -/
theorem Owned.reachable_or_created {it : Item} (h : Owned (.of m) m'.extent it)
    (hit : it.IsObject) : Reachable m it ∨ Created m m' it := by
  cases h with
  | before h => exact .inl h
  | plain h => exact absurd h hit
  | frame hold hnew => exact .inr ⟨hold, hnew⟩
  | object hold hnew => exact .inr ⟨hold, hnew⟩
  | function hold hnew _ => exact .inr ⟨hold, hnew⟩
  | cls hold hnew _ _ _ => exact .inr ⟨hold, hnew⟩

theorem Proceeds.respects {result : Option Value} (h : Proceeds (.of m) m m')
    (hresult : ∀ v ∈ result, OwnsValue (.of m) m'.extent v) : Respects m m' result := by
  refine ⟨h.confines.frame, h.confines.object, fun hit hreached => ?_⟩
  have hin := (inside_of m).after h
  refine Owned.reachable_or_created (h.confines.reachable ?_ hreached) hit
  rintro root ((rfl | rfl) | ⟨v, hv, rfl⟩)
  · exact hin.current
  · exact hin.global
  · exact hresult v hv

/-- **Private state is confined.**

Let an expression or a statement be run on any machine, whatever it holds and however references find
their bindings. If it ends, normally, with `return` or with a fault, then frames and instances that
could not be reached from the current or the global frame are unchanged, and every object that can be
reached from the result or from these frames could be reached before or has been made by the run. -/
theorem private_state_confined (σ : Scoping) (n : Nat) (m m' : Machine) :
    (∀ e v, eval σ n e m = .ok v m' → Respects m m' (some v)) ∧
    (∀ e f, eval σ n e m = .fault f m' → Respects m m' none) ∧
    (∀ st, exec σ n st m = .ok .normal m' → Respects m m' none) ∧
    (∀ st v, exec σ n st m = .ok (.returned v) m' → Respects m m' (some v)) ∧
    (∀ st f, exec σ n st m = .fault f m' → Respects m m' none) := by
  have heval := (confining (.of m) σ n).eval (inside_of m)
  have hexec := (confining (.of m) σ n).exec (inside_of m)
  refine ⟨fun e v hr => ?_, fun e f hr => ?_, fun st hr => ?_, fun st v hr => ?_,
    fun st f hr => ?_⟩
  · have hends := heval e
    rw [hr] at hends
    refine hends.1.respects ?_
    rintro _ ⟨⟩
    exact hends.2
  · have hends := heval e
    rw [hr] at hends
    exact hends.respects nofun
  · have hends := hexec st
    rw [hr] at hends
    exact hends.1.respects nofun
  · have hends := hexec st
    rw [hr] at hends
    refine hends.1.respects ?_
    rintro _ ⟨⟩
    exact hends.2
  · have hends := hexec st
    rw [hr] at hends
    exact hends.respects nofun

/-- In a block that has ended, what it declared is out of reach. -/
theorem private_state_confined_block :
    let outer : Store := (Store.initial.newFrame [("x", .bool true)] (some Store.global)).2
    let m : Machine := { Machine.initial .nan none with store := outer }
    let st : Stmt := .block [.declare ⟨.symbol .identifier, "x", 1⟩ none]
    ¬ Reachable m (.frame 1) ∧
      ∃ m', exec .byName 3 st m = .ok .normal m' ∧ Respects m m' none := by
  intro outer m st
  refine ⟨fun h => ?_, _, rfl, (private_state_confined .byName 3 m _).2.2.1 st rfl⟩
  obtain ⟨root, rfl | rfl, hpath⟩ := h
  all_goals
    obtain h | ⟨l, h⟩ | ⟨f, h⟩ := builtin_of_reachable (s := outer) rfl ⟨_, rfl, hpath⟩
    all_goals cases h

end Scriptlet.Run
