import Scriptlet.Proofs.Run.Operations

/-!
# Runs preserve the invariant

Whatever part of a program runs, if the frames match the scopes of its visit when it starts, then
the invariant of the store holds when it ends, its value fits, and what it declares is bound. The
proof goes by induction on the steps that are granted, for all kinds of computations at once
(`Preserves`), with one lemma for each kind.

Results:
* `preserves`: **every computation preserves the invariant.**
-/

namespace Scriptlet.Run

open Scope Exec

variable {W : World} {Λ Λ' : Layout} {m m' : Machine} {n : Nat} {s : State}
  {ns : List (List String)}

/-- A value that is returned fits. -/
def FlowFits (P : List Stmt → Prop) (Λ : Layout) (st : Store) : Flow → Prop
  | .normal => True
  | .returned v => ValueFits P Λ st v

/-- How references are followed. -/
abbrev World.scoping (W : World) : Scoping := .byDistance W.distances

/-- **What computations preserve when they are granted `n` steps.** -/
structure Preserves (W : World) (n : Nat) : Prop where
  eval {Λ m e s ns} (h : At W Λ m ⟨.expr e, s, ns⟩) :
    Ends W Λ m (eval W.scoping n e m) (ValueFits W.programs)
  evalAll {Λ m es s ns} (h : At W Λ m ⟨.exprs es, s, ns⟩) :
    Ends W Λ m (evalAll W.scoping n es m)
      (fun Λ' st vs => ∀ v ∈ vs, ValueFits W.programs Λ' st v)
  apply {Λ m callee args site} (h : HeapFits W.programs Λ m.store)
    (hcallee : ValueFits W.programs Λ m.store callee)
    (hargs : ∀ v ∈ args, ValueFits W.programs Λ m.store v)
    (harity : callee.arity? = some args.length) :
    Ends W Λ m (apply W.scoping n callee args site m) (ValueFits W.programs)
  call {Λ m fn args} (h : HeapFits W.programs Λ m.store)
    (hfn : FunctionFits W.programs Λ m.store fn)
    (hargs : ∀ v ∈ args, ValueFits W.programs Λ m.store v) (harity : args.length = fn.arity) :
    Ends W Λ m (call W.scoping n fn args m) (ValueFits W.programs)
  exec {Λ m st s ns} (h : At W Λ m ⟨.stmt st, s, ns⟩) :
    Ends W Λ m (exec W.scoping n st m) (fun Λ' st' flow => FlowFits W.programs Λ' st' flow ∧
      ∀ name ∈ st.declared?, (st'.get? m.current name.lexeme).isSome = true)
  execAll {Λ m ss s ns} (h : At W Λ m ⟨.stmts ss, s, ns⟩) :
    Ends W Λ m (execAll W.scoping n ss m) (FlowFits W.programs)
  loop {Λ m c b s ns} (h : At W Λ m ⟨.stmt (.loop c b), s, ns⟩) :
    Ends W Λ m (loop W.scoping n c b m) (FlowFits W.programs)

/-! ## Expressions -/

theorem eval_succ (ih : Preserves W n) {e : Expr} (h : At W Λ m ⟨.expr e, s, ns⟩) :
    Ends W Λ m (eval W.scoping (n + 1) e m) (ValueFits W.programs) := by
  have hproper := h.sound.proper
  cases e with
  | literal value => exact .pure h.heap (by cases value <;> trivial)
  | group inner => exact ih.eval (h.within .group rfl rfl)
  | unary op operand =>
    refine (ih.eval (h.within .operand rfl rfl)).bind fun x Λ₁ m₁ _ h₁ _ => ?_
    exact ends_unary h₁.heap hproper.1
  | binary l op r =>
    refine (ih.eval (h.within .left rfl rfl)).bind fun x Λ₁ m₁ _ h₁ _ => ?_
    have hat₁ := (h.after h₁).within .right (scopes_walkExpr l s) rfl
    refine (ih.eval hat₁).bind fun y Λ₂ m₂ _ h₂ _ => ?_
    exact ends_binary h₂.heap hproper.1
  | logical l op r =>
    refine (ih.eval (h.within .leftLogical rfl rfl)).bind fun x Λ₁ m₁ _ h₁ hx => ?_
    split_ifs
    · exact .pure h₁.heap hx
    · exact ih.eval ((h.after h₁).within .rightLogical (scopes_walkExpr l s) rfl)
  | var ref name =>
    exact (h.ends_readRef .var h.sound.var.2).mono fun _ _ _ hx => hx.fits
  | assign ref name e =>
    refine (ih.eval (h.within .assigned rfl rfl)).bind fun x Λ₁ m₁ _ h₁ hx => ?_
    refine ((h.after h₁).ends_writeRef rfl hx).bind fun _ Λ₂ m₂ _ h₂ _ => ?_
    exact .pure h₂.heap (h₂.fits hx)
  | call callee paren args =>
    refine (ih.eval (h.within .callee rfl rfl)).bind fun f Λ₁ m₁ _ h₁ hf => ?_
    have hat₁ := (h.after h₁).within .arguments (scopes_walkExpr callee s) rfl
    refine (ih.evalAll hat₁).bind fun values Λ₂ m₂ _ h₂ hvalues => ?_
    cases harity : f.arity? with
    | none => exact .fault h₂.heap trivial
    | some arity =>
      dsimp only
      split_ifs with hlength
      · exact ih.apply h₂.heap (h₂.fits hf) hvalues (by rw [harity, hlength])
      · exact .fault h₂.heap trivial
  | get object name =>
    refine (ih.eval (h.within .object rfl rfl)).bind fun x Λ₁ m₁ _ h₁ _ => ?_
    exact ends_property h₁.heap hproper.2
  | set object name value =>
    have hat := h.within .setObject (scopes_walkExpr value s) rfl
    refine (ih.eval hat).bind fun x Λ₁ m₁ _ h₁ _ => ?_
    cases x with
    | object i =>
      have hat₁ := (h.after h₁).within .setValue rfl rfl
      refine (ih.eval hat₁).bind fun v Λ₂ m₂ _ h₂ hv => ?_
      have hfollows : Follows W Λ₂ m₂ Λ₂ { m₂ with store := m₂.store.setField i name.lexeme v } :=
        .store (h₂.heap.setField hv) (List.prefix_refl _) (Store.later_setField _ _ _ _)
      exact ⟨Λ₂, hfollows, hfollows.fits hv⟩
    | _ => exact .fault h₁.heap trivial
  | this ref keyword =>
    have hread := h.sound.keyword_readable (.inl hproper)
    exact (h.ends_readRef .this hread).mono fun _ _ _ hx => hx.fits
  | super ref keyword method => exact h.ends_superMethod rfl

theorem evalAll_succ (ih : Preserves W n) {es : List Expr} (h : At W Λ m ⟨.exprs es, s, ns⟩) :
    Ends W Λ m (evalAll W.scoping (n + 1) es m)
      (fun Λ' st vs => ∀ v ∈ vs, ValueFits W.programs Λ' st v) := by
  cases es with
  | nil => exact .pure h.heap nofun
  | cons e es =>
    refine (ih.eval (h.within .firstExpr rfl rfl)).bind fun v Λ₁ m₁ _ h₁ hv => ?_
    have hat₁ := (h.after h₁).within .otherExprs (scopes_walkExpr e s) rfl
    refine (ih.evalAll hat₁).bind fun vs Λ₂ m₂ _ h₂ hvs => ?_
    exact .pure h₂.heap (List.forall_mem_cons.mpr ⟨h₂.fits hv, hvs⟩)

/-! ## Calls -/

/-- **The body of a function starts in frames that match its scopes.** -/
theorem at_body {fn : Function} {args : List Value} (h : HeapFits W.programs Λ m.store)
    (hfn : FunctionFits W.programs Λ m.store fn)
    (hargs : ∀ v ∈ args, ValueFits W.programs Λ m.store v) (harity : args.length = fn.arity) :
    ∃ Λ' s ns, Follows W Λ m Λ' { m with
        store := (m.store.newFrame (.ofArguments fn.decl.params args) (some fn.frame)).2 } ∧
      At W Λ' { m with
          store := (m.store.newFrame (.ofArguments fn.decl.params args) (some fn.frame)).2
          current := m.store.frames.size } ⟨.stmts fn.decl.body, s, ns⟩ := by
  obtain ⟨context, s, declared, hknown, hmatches, hhome⟩ := hfn
  obtain ⟨id, ⟨name, params, body⟩, frame⟩ := fn
  have hparams : ∀ p ∈ params, p.IsName := hknown.sound.proper.2.1
  obtain ⟨scope, hscopes, hplain, hscope⟩ := enterFunction_scopes hparams context s
  have hbs : ∀ x v, (Bindings.ofArguments params args).get? x = some v →
      x ∈ params.map (·.lexeme) ++ declaredIn body ∧ Bindable W.programs Λ m.store x v := by
    intro x v hv
    obtain ⟨hx, hmem⟩ := (Bindings.get?_ofArguments params args x).1 v hv
    refine ⟨List.mem_append_left _ hx, ?_⟩
    obtain ⟨p, hp, rfl⟩ := List.mem_map.mp hx
    exact bindable_of_isName (hparams p hp) (hargs v hmem)
  have hfollows := Follows.newFrame h (hmatches.lt h.root) hbs
  have hlink := Store.enclosing?_newFrame (Bindings.ofArguments params args) (some frame) m.store
    m.store.frames.size
  rw [if_pos rfl] at hlink
  have hclasses : (enterFunction context params s).classes = s.classes :=
    (Advance.foldl_introduce params _).classes
  refine ⟨_, _, _, hfollows, hknown.step .body, hfollows.heap, ?_,
    hhome.enter .body hplain hscopes hclasses hfollows.later hlink⟩
  rw [hscopes]
  refine matches_newFrame h hmatches fun x hx => ?_
  exact (Bindings.get?_ofArguments params args x).2 harity ((hscope x).mp (by rw [hx]; rfl))

theorem call_succ (ih : Preserves W n) {fn : Function} {args : List Value}
    (h : HeapFits W.programs Λ m.store) (hfn : FunctionFits W.programs Λ m.store fn)
    (hargs : ∀ v ∈ args, ValueFits W.programs Λ m.store v) (harity : args.length = fn.arity) :
    Ends W Λ m (call W.scoping (n + 1) fn args m) (ValueFits W.programs) := by
  obtain ⟨Λ', s, ns, hfollows, hat⟩ := at_body h hfn hargs harity
  refine .after hfollows ?_
  refine (Ends.inFrame (ih.execAll hat)).bind fun flow Λ₁ m₁ _ h₁ hflow => ?_
  cases flow with
  | normal => exact .pure h₁.heap trivial
  | returned v => exact .pure h₁.heap hflow

/-- A class that is called has an instance, on which its constructor can be called. -/
theorem ends_construct {c : Class} {args : List Value} {method : Function}
    (h : HeapFits W.programs Λ m.store) (hc : ClassFits W.programs Λ m.store c)
    (hmethod : c.findMethod constructorName = some method) (harity : c.arity = args.length)
    {i : InstanceId} (hi : m.store.class? i = some c) :
    Ends W Λ m (bindMethod method i m) (fun Λ' st bound =>
      FunctionFits W.programs Λ' st bound ∧ args.length = bound.arity) := by
  obtain ⟨K, hK, hfits⟩ := hc.findMethod hmethod
  refine (ends_bindMethod h hfits hi hK).mono fun _ _ bound hbound => ⟨hbound.2, ?_⟩
  rw [← harity, Class.arity, hmethod, Function.arity, hbound.1]
  rfl

theorem ends_newInstance {c : Class} (h : HeapFits W.programs Λ m.store)
    (hc : ClassFits W.programs Λ m.store c) :
    Ends W Λ m (newInstance c m) (fun _ st i => st.class? i = some c) := by
  refine ⟨Λ, .store (h.newInstance hc) (List.prefix_refl _) (Store.later_newInstance _ _), ?_⟩
  show (m.store.newInstance c).2.class? m.store.instances.size = _
  rw [Store.class?_newInstance, if_pos rfl]

theorem apply_succ (ih : Preserves W n) {callee : Value} {args : List Value} {site : Token}
    (h : HeapFits W.programs Λ m.store) (hcallee : ValueFits W.programs Λ m.store callee)
    (hargs : ∀ v ∈ args, ValueFits W.programs Λ m.store v)
    (harity : callee.arity? = some args.length) :
    Ends W Λ m (apply W.scoping (n + 1) callee args site m) (ValueFits W.programs) := by
  cases callee with
  | function f => exact ih.call h hcallee hargs (Option.some.inj harity).symm
  | native f => exact ends_callNative h
  | cls c =>
    refine (ends_newInstance h hcallee).bind fun i Λ₁ m₁ _ h₁ hi => ?_
    cases hmethod : c.findMethod constructorName with
    | none => exact .pure h₁.heap trivial
    | some method =>
      have hfits : ClassFits W.programs Λ₁ m₁.store c := h₁.fits (v := .cls c) hcallee
      refine (ends_construct h₁.heap hfits hmethod (Option.some.inj harity) hi).bind
        fun bound Λ₂ m₂ _ h₂ hbound => ?_
      refine (ih.call h₂.heap hbound.1 (fun v hv => ?_) hbound.2).map fun _ _ _ _ => trivial
      exact h₂.fits (h₁.fits (hargs v hv))
  | _ => cases harity

/-! ## Statements -/

/-- **After a statement the frames match the scopes for the next one**, since what it declares is
bound. -/
theorem At.otherStmts {st : Stmt} {ss : List Stmt} (h : At W Λ m ⟨.stmts (st :: ss), s, ns⟩)
    (hbound : ∀ name ∈ st.declared?, (m.store.get? m.current name.lexeme).isSome = true) :
    At W Λ m ⟨.stmts ss, walkStmt st s, ns⟩ := by
  refine ⟨h.known.step .otherStmts, h.heap, ?_, h.home.stay .otherStmts h.sound.proper rfl⟩
  have hscopes := scopes_walkStmt st h.sound.proper.1 s
  dsimp only
  rw [hscopes]
  cases hname : st.declared? with
  | none => exact h.frames
  | some name => exact h.frames.introduce (hbound name hname)

theorem loop_succ (ih : Preserves W n) {c : Expr} {b : Stmt}
    (h : At W Λ m ⟨.stmt (.loop c b), s, ns⟩) :
    Ends W Λ m (loop W.scoping (n + 1) c b m) (FlowFits W.programs) := by
  refine (ih.eval (h.within .loopCondition rfl rfl)).bind fun x Λ₁ m₁ _ h₁ _ => ?_
  split_ifs
  · have hat₁ := (h.after h₁).within .loopBody (scopes_walkExpr c s) rfl
    refine (ih.exec hat₁).bind fun flow Λ₂ m₂ _ h₂ hflow => ?_
    cases flow with
    | normal => exact ih.loop ((h.after h₁).after h₂)
    | returned v => exact .pure h₂.heap hflow.1
  · exact .pure h₁.heap trivial

theorem execAll_succ (ih : Preserves W n) {ss : List Stmt} (h : At W Λ m ⟨.stmts ss, s, ns⟩) :
    Ends W Λ m (execAll W.scoping (n + 1) ss m) (FlowFits W.programs) := by
  cases ss with
  | nil => exact .pure h.heap trivial
  | cons st ss =>
    refine (ih.exec (h.within .firstStmt rfl rfl)).bind fun flow Λ₁ m₁ _ h₁ hflow => ?_
    cases flow with
    | normal => exact ih.execAll ((h.after h₁).otherStmts (h₁.current ▸ hflow.2))
    | returned v => exact .pure h₁.heap hflow.1

theorem At.elseDo {c : Expr} {t e : Stmt} (h : At W Λ m ⟨.stmt (.branch c t (some e)), s, ns⟩) :
    At W Λ m ⟨.stmt e, walkStmt t (walkExpr c s), ns⟩ := by
  have hproper := h.sound.proper
  refine h.within .elseDo ?_ rfl
  dsimp only
  rw [scopes_walkStmt t hproper.2.1.1, hproper.2.1.2]
  exact scopes_walkExpr c s

/-- A block starts in a new frame that matches its scope. -/
theorem At.block {body : List Stmt} (h : At W Λ m ⟨.stmt (.block body), s, ns⟩) :
    ∃ Λ', Follows W Λ m Λ' { m with store := (m.store.newFrame [] (some m.current)).2 } ∧
      At W Λ' { m with
          store := (m.store.newFrame [] (some m.current)).2
          current := m.store.frames.size } ⟨.stmts body, s.enter [], declaredIn body :: ns⟩ := by
  have hbs : ∀ x v, Bindings.get? [] x = some v →
      x ∈ declaredIn body ∧ Bindable W.programs Λ m.store x v := nofun
  have hfollows := Follows.newFrame h.heap (h.frames.lt h.heap.root) hbs
  have hlink := Store.enclosing?_newFrame [] (some m.current) m.store m.store.frames.size
  rw [if_pos rfl] at hlink
  exact ⟨_, hfollows, h.known.step .block, hfollows.heap, matches_newFrame h.heap h.frames nofun,
    h.home.enter .block plain_nil rfl rfl hfollows.later hlink⟩

/-- A statement that binds the name it declares in the current frame. -/
theorem At.ends_define {st : Stmt} {name : Token} {v : Value}
    (h : At W Λ m ⟨.stmt st, s, ns⟩) (hst : st.declared? = some name)
    (hv : ValueFits W.programs Λ (m.store.define m.current name.lexeme v) v) :
    Ends W Λ m ((do define name.lexeme v; return Flow.normal : Exec Flow) m)
      (fun Λ' st' flow => FlowFits W.programs Λ' st' flow ∧
        ∀ name ∈ st.declared?, (st'.get? m.current name.lexeme).isSome = true) := by
  have hname := Stmt.Proper.isName h.sound.proper hst
  have hpending : name.lexeme ∈ Code.pending (.stmt st) := by
    simp [Code.pending, declaredIn_some hst]
  refine (Run.ends_define h.heap hname (h.may_bind hpending) hv
    (h.frames.lt h.heap.root)).bind fun _ Λ₁ m₁ _ h₁ hbound => ?_
  refine .pure h₁.heap ⟨trivial, ?_⟩
  rw [hst]
  rintro _ ⟨⟩
  exact hbound.2

theorem exec_succ (ih : Preserves W n) {st : Stmt} (h : At W Λ m ⟨.stmt st, s, ns⟩) :
    Ends W Λ m (exec W.scoping (n + 1) st m) (fun Λ' st' flow =>
      FlowFits W.programs Λ' st' flow ∧
        ∀ name ∈ st.declared?, (st'.get? m.current name.lexeme).isSome = true) := by
  cases st with
  | expr e =>
    exact (ih.eval (h.within .evaluated rfl rfl)).map fun _ _ _ _ => ⟨trivial, nofun⟩
  | declare name init =>
    cases init with
    | none => exact h.ends_define rfl trivial
    | some e =>
      have hat : At W Λ m ⟨.expr e, s.declare name, ns⟩ :=
        ⟨h.known.step .init, h.heap, h.frames.declare, h.home.stay .init h.sound.proper rfl⟩
      refine (ih.eval hat).bind fun v Λ₁ m₁ _ h₁ hv => ?_
      have hdefined : ValueFits W.programs Λ₁ (m₁.store.define m₁.current name.lexeme v) v :=
        hv.later (fun _ hp => hp) (later_define h.sound.proper.1 _ _ _) (List.prefix_refl _)
      have hends := (h.after h₁).ends_define rfl hdefined
      rw [h₁.current] at hends
      exact hends
  | block body =>
    obtain ⟨Λ', hfollows, hat⟩ := h.block
    refine .after hfollows ?_
    exact (Ends.inFrame (ih.execAll hat)).mono fun _ _ _ hflow => ⟨hflow, nofun⟩
  | branch c t o =>
    refine (ih.eval (h.within .condition rfl rfl)).bind fun x Λ₁ m₁ _ h₁ _ => ?_
    split_ifs
    · have hat₁ := (h.after h₁).within .thenDo (scopes_walkExpr c s) rfl
      exact (ih.exec hat₁).mono fun _ _ _ hflow => ⟨hflow.1, nofun⟩
    · cases o with
      | none => exact .pure h₁.heap ⟨trivial, nofun⟩
      | some e =>
        exact (ih.exec (h.after h₁).elseDo).mono fun _ _ _ hflow => ⟨hflow.1, nofun⟩
  | loop c b => exact (ih.loop h).mono fun _ _ _ hflow => ⟨hflow, nofun⟩
  | function d =>
    obtain ⟨name, params, body⟩ := d
    have hfollows : Follows W Λ m Λ { m with nextId := m.nextId + 1 } :=
      ⟨h.heap, List.prefix_refl _, .refl _, rfl, List.prefix_refl _, rfl⟩
    refine .after hfollows ((h.after hfollows).ends_define (v := .function ⟨m.nextId, _, _⟩) rfl ?_)
    have hlater := later_define h.sound.proper.1 m.current
      (.function ⟨m.nextId, ⟨name, params, body⟩, m.current⟩) m.store
    refine ⟨_, s.introduce name, ns, h.known.step .function, ?_,
      (h.home.stay .function h.sound.proper rfl).later (fun _ hp => hp) hlater⟩
    refine (h.frames.later hlater (List.prefix_refl _)).introduce ?_
    rw [Store.get?_define, if_pos ⟨rfl, rfl, h.frames.lt h.heap.root⟩]
    rfl
  | ret keyword value =>
    cases value with
    | none => exact .pure h.heap ⟨trivial, nofun⟩
    | some e =>
      have hat := h.within .returned (scopes_checkReturn s keyword true) rfl
      exact (ih.eval hat).map fun _ _ _ hv => ⟨hv, nofun⟩
  | classDecl d =>
    refine (h.ends_declareClass rfl).bind fun _ Λ₁ m₁ _ h₁ hbound => ?_
    refine .pure h₁.heap ⟨trivial, ?_⟩
    obtain ⟨name, superclass, interface, methods⟩ := d
    rintro _ ⟨⟩
    exact hbound

/-- **Every computation preserves the invariant**, however many steps it is granted. -/
theorem preserves (W : World) (n : Nat) : Preserves W n := by
  induction n with
  | zero => exact ⟨fun _ => trivial, fun _ => trivial, fun _ _ _ _ => trivial,
      fun _ _ _ _ => trivial, fun _ => trivial, fun _ => trivial, fun _ => trivial⟩
  | succ n ih => exact ⟨eval_succ ih, evalAll_succ ih, apply_succ ih, call_succ ih, exec_succ ih,
      execAll_succ ih, loop_succ ih⟩

end Scriptlet.Run
