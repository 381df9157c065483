import Scriptlet.Proofs.Run.Answering

/-!
# A run that reads turns does the same

The tree as it stands is run in one machine, and with its turns read in another. Where the parts of the
tree are led, both do the same, step by step: they end the same way, with values that answer each other,
or with the same fault, or run out of steps together. They differ in one place, the block that is read
as a turn.

Results:
* `folded`: **computations on parts that are led answer each other**, by induction on the steps.
* `answers_readInterpret`: the same of programs.
-/

namespace Scriptlet

open List (Forall₂)
open Scope

abbrev Flow.Folds (R : Reading) (G : Guide) (Φ : Folding) : Flow → Flow → Prop :=
  Flow.Alike (Value.Folds R G Φ)

namespace Run

open Exec

variable {R : Reading} {G : Guide} {D D' : Distances}

/-- Computations that are granted `n` steps answer each other on parts that are led. -/
structure Folded (R : Reading) (G : Guide) (D D' : Distances) (n : Nat) : Prop where
  eval {Φ : Folding} {fl : List Bool} {e : Expr} (he : e.Led G fl) :
    Answers R G Φ fl (Value.Folds R G) (eval (.byDistance D) n e)
      (Task.read R (.byDistance D') n (.eval e))
  evalAll {Φ : Folding} {fl : List Bool} {es : List Expr} (hes : Expr.LedAll G fl es) :
    Answers R G Φ fl (fun Ψ => Forall₂ (Value.Folds R G Ψ)) (evalAll (.byDistance D) n es)
      (Task.read R (.byDistance D') n (.evalAll es))
  apply {Φ : Folding} {fl : List Bool} {f f' : Value} (hf : f.Folds R G Φ f')
      {args args' : List Value} (hargs : Forall₂ (Value.Folds R G Φ) args args') (site : Token) :
    Answers R G Φ fl (Value.Folds R G) (apply (.byDistance D) n f args site)
      (Task.read R (.byDistance D') n (.apply f' args' site))
  call {Φ : Folding} {fl : List Bool} {fn fn' : Function} (hfn : fn.Folds R G Φ [] fn')
      {args args' : List Value} (hargs : Forall₂ (Value.Folds R G Φ) args args') :
    Answers R G Φ fl (Value.Folds R G) (call (.byDistance D) n fn args)
      (Task.read R (.byDistance D') n (.call fn' args'))
  exec {Φ : Folding} {fl : List Bool} {st : Stmt} (hst : st.Led R G fl) :
    Answers R G Φ fl (Flow.Folds R G) (exec (.byDistance D) n st)
      (Task.read R (.byDistance D') n (.exec st))
  execAll {Φ : Folding} {fl : List Bool} {ss : List Stmt} (hss : Stmt.LedAll R G ss fl) :
    Answers R G Φ fl (Flow.Folds R G) (execAll (.byDistance D) n ss)
      (Task.read R (.byDistance D') n (.execAll ss))
  loop {Φ : Folding} {fl : List Bool} {c : Expr} (hc : c.Led G fl) {b : Stmt}
      (hb : b.Led R G fl) :
    Answers R G Φ fl (Flow.Folds R G) (loop (.byDistance D) n c b)
      (Task.read R (.byDistance D') n (.loop c b))

section
variable {n : Nat} {Φ : Folding} {fl : List Bool} {given : RefId → Prop}

theorem answers_eval (hG : G.Within (.ofDistances given D D')) (ih : Folded R G D D' n) {e : Expr}
    (he : e.Led G fl) :
    Answers R G Φ fl (Value.Folds R G) (eval (.byDistance D) (n + 1) e)
      (Task.read R (.byDistance D') (n + 1) (.eval e)) := by
  unfold eval
  cases e with
  | literal value => exact answers_pure (value.alike_toValue _ _)
  | group e => exact (ih.eval (e := e) he).last
  | unary op e =>
    exact (ih.eval (e := e) he).seq fun _ _ _ _ hv =>
      (answers_ofOperator (unary_like op.like_self hv)).last
  | binary l op r =>
    exact (ih.eval he.1).seq fun _ _ _ _ hv => (ih.eval he.2).seq fun _ hle _ _ hw =>
      (answers_ofOperator (binary_like op.like_self (Value.Folds.later hv hle) hw)).last
  | logical l op r =>
    refine (ih.eval he.1).seq fun _ _ v v' hv => ?_
    dsimp only
    rw [hv.truthy]
    split_ifs
    · exact answers_pure hv
    · exact (ih.eval he.2).last
  | var ref name => exact (answers_readRef (hG.ref _ _ he).2 name).last
  | assign ref name e =>
    refine (ih.eval he.1).seq fun Ψ _ v v' hv => ?_
    have hwrite : Answers R G Ψ fl (fun _ => Eq) (writeRef (.byDistance D) ref name v)
        (Task.read R (.byDistance D') n (.write ref name e v')) := by
      rw [read_write]
      exact answers_writeRef (hG.ref _ _ he.2).2 name hv
    exact hwrite.seq fun _ hle _ _ _ => answers_pure (Value.Folds.later hv hle)
  | call e paren args =>
    refine (ih.eval he.1).seq fun _ _ f f' hf => (ih.evalAll he.2).seq fun _ hle vs vs' hvs => ?_
    dsimp only
    rw [hf.arity?, hvs.length_eq]
    cases f'.arity? with
    | none => exact (answers_raise paren _).last
    | some arity =>
      dsimp only
      split_ifs
      · exact (ih.apply (Value.Folds.later hf hle) hvs paren).last
      · exact (answers_raise paren _).last
  | get e name => exact (ih.eval (e := e) he).seq fun _ _ _ _ hv => (answers_property hv name).last
  | set o name e =>
    refine (ih.eval he.2).seq fun _ _ v v' hv => ?_
    cases hv with
    | object i =>
      exact (ih.eval he.1).seq fun _ _ _ _ hw => (answers_setField i _ hw).seq fun _ hle _ _ _ =>
        answers_pure (Value.Folds.later hw hle)
    | _ => exact (answers_raise name _).last
  | this ref keyword => exact (answers_readRef (hG.ref _ _ he).2 keyword).last
  | super ref keyword method =>
    obtain ⟨-, k, hd, hd', hthis, hsuper⟩ := hG.super _ _ he
    exact (answers_superMethod hd hd' hthis hsuper keyword method).last

theorem answers_evalAll (ih : Folded R G D D' n) {es : List Expr} (hes : Expr.LedAll G fl es) :
    Answers R G Φ fl (fun Ψ => Forall₂ (Value.Folds R G Ψ)) (evalAll (.byDistance D) (n + 1) es)
      (Task.read R (.byDistance D') (n + 1) (.evalAll es)) := by
  cases es with
  | nil => exact answers_pure .nil
  | cons e es =>
    exact (ih.eval hes.1).seq fun _ _ _ _ hv => (ih.evalAll hes.2).seq fun _ hle _ _ hvs =>
      answers_pure (.cons (Value.Folds.later hv hle) hvs)

theorem answers_apply (ih : Folded R G D D' n) {f f' : Value} (hf : f.Folds R G Φ f')
    {args args' : List Value} (hargs : Forall₂ (Value.Folds R G Φ) args args') (site : Token) :
    Answers R G Φ fl (Value.Folds R G) (apply (.byDistance D) (n + 1) f args site)
      (Task.read R (.byDistance D') (n + 1) (.apply f' args' site)) := by
  unfold apply
  cases hf with
  | function hfn => exact (ih.call hfn hargs).last
  | native f =>
    cases f with
    | log => exact answers_log hargs site
    | now => exact (answers_now args args' site).last
  | @cls c c' hc =>
    refine (answers_newInstance hc).seq fun Ψ hΨ i i' hi => ?_
    subst hi
    have hmethod := (Class.Folds.later hc hΨ).findMethod constructorName
    dsimp only
    generalize c.findMethod constructorName = o at hmethod ⊢
    generalize c'.findMethod constructorName = o' at hmethod ⊢
    cases hmethod with
    | none => exact answers_pure (.object i)
    | some hfn =>
      refine (answers_bindMethod hfn i).seq fun Ψ' hΨ' _ _ hbound => ?_
      have hargs' := hargs.imp fun _ _ hv => Value.Folds.later hv (hΨ.trans hΨ')
      exact (ih.call hbound hargs').seq fun _ _ _ _ _ => answers_pure (.object i)
  | _ => exact (answers_raise site _).last

theorem answers_call (ih : Folded R G D D' n) {fn fn' : Function} (hfn : fn.Folds R G Φ [] fn')
    {args args' : List Value} (hargs : Forall₂ (Value.Folds R G Φ) args args') :
    Answers R G Φ fl (Value.Folds R G) (call (.byDistance D) (n + 1) fn args)
      (Task.read R (.byDistance D') (n + 1) (.call fn' args')) := by
  obtain ⟨fl', hframe, hled⟩ := hfn.frame
  obtain ⟨id, ⟨name, params, body⟩, frame⟩ := fn
  obtain ⟨id', decl', frame'⟩ := fn'
  obtain rfl : decl' = ⟨name, params, body⟩ := hfn.decl.symm
  have hparams : Forall₂ (Token.Like Eq) params params :=
    List.forall₂_same.mpr fun t _ => t.like_self
  unfold call
  refine (answers_newFrame (.ofArguments hparams hargs) hframe).seq fun _ _ f f' hf => ?_
  refine (Answers.inFrame hf (ih.execAll hled)).seq fun _ _ flow flow' hflow => ?_
  cases hflow with
  | normal => exact answers_pure .null
  | returned hv => exact answers_pure hv

/-- Statements after the first, unless it returns. -/
theorem answers_flow {x : Exec Flow} {y : Exec Flow} (h : Answers R G Φ fl (Flow.Folds R G) x y)
    {rest : Exec Flow} {plan : Plan Flow}
    (hrest : ∀ Ψ, Answers R G Ψ fl (Flow.Folds R G) rest
      (plan.run (Task.read R (.byDistance D') n))) :
    Answers R G Φ fl (Flow.Folds R G)
      (x >>= fun
        | .normal => rest
        | .returned value => pure (.returned value))
      (y >>= fun flow => (Flow.plan plan flow).run (Task.read R (.byDistance D') n)) := by
  refine h.seq fun Ψ _ flow flow' hflow => ?_
  cases hflow with
  | normal => exact hrest Ψ
  | returned hv => exact answers_pure (.returned hv)

theorem answers_exec (hG : G.Within (.ofDistances given D D')) (ih : Folded R G D D' n) {st : Stmt}
    (hst : st.Led R G fl) :
    Answers R G Φ fl (Flow.Folds R G) (exec (.byDistance D) (n + 1) st)
      (Task.read R (.byDistance D') (n + 1) (.exec st)) := by
  cases st with
  | expr e => exact (ih.eval (e := e) hst).seq fun _ _ _ _ _ => answers_pure .normal
  | declare name init =>
    cases init with
    | none =>
      exact (answers_define hst _ .null).seq fun _ _ _ _ _ => answers_pure .normal
    | some e =>
      exact (ih.eval hst.2).seq fun _ _ _ _ hv => (answers_define hst.1 _ hv).seq fun _ _ _ _ _ =>
        answers_pure .normal
  | block body =>
    change Stmt.LedAll R G body (R.direct body :: fl) at hst
    cases hdirect : R.direct body with
    | true =>
      rw [hdirect] at hst
      rw [read_direct hdirect]
      exact Answers.turn fun _ _ => ih.execAll hst
    | false =>
      rw [hdirect] at hst
      rw [read_block hdirect]
      exact answers_currentFrame.seq fun _ _ _ _ hcurrent =>
        (answers_newFrame .nil hcurrent).seq fun _ _ _ _ hframe =>
          Answers.inFrame hframe (ih.execAll hst)
  | branch c t o =>
    cases o with
    | none =>
      refine (ih.eval hst.1).seq fun _ _ v v' hv => ?_
      dsimp only
      rw [hv.truthy]
      split_ifs
      · exact (ih.exec hst.2).last
      · exact answers_pure .normal
    | some o =>
      refine (ih.eval hst.1.1).seq fun _ _ v v' hv => ?_
      dsimp only
      rw [hv.truthy]
      split_ifs
      · exact (ih.exec hst.1.2).last
      · exact (ih.exec hst.2).last
  | loop c b => exact (ih.loop hst.1 hst.2).last
  | function decl =>
    refine answers_currentFrame.seq fun Ψ _ frame frame' hcurrent => ?_
    have hmade : Answers R G Ψ fl (fun Ψ => Function.Folds R G Ψ []) (newFunction decl frame)
        (newFunction decl frame') := answers_newFunction hst.2 hcurrent
    exact hmade.seq fun _ _ _ _ hfn => (answers_define hst.1 _ (.function hfn)).seq
      fun _ _ _ _ _ => answers_pure .normal
  | ret keyword value =>
    cases value with
    | none => exact answers_pure (.returned .null)
    | some e =>
      exact (ih.eval (e := e) hst).seq fun _ _ _ _ hv => answers_pure (.returned hv)
  | classDecl decl =>
    obtain ⟨name, superclass, interface, methods⟩ := decl
    obtain ⟨hfl, hparent, hmethods⟩ := hst
    have hparent' : ∀ parent ∈ superclass, Distance.Folds fl D[parent.ref]? D'[parent.ref]? :=
      fun parent hmem => (hG.ref _ _ (hparent parent hmem)).2
    exact (answers_declareClass hparent' hmethods hfl).seq fun _ _ _ _ _ => answers_pure .normal

theorem answers_execAll (ih : Folded R G D D' n) {ss : List Stmt} (hss : Stmt.LedAll R G ss fl) :
    Answers R G Φ fl (Flow.Folds R G) (execAll (.byDistance D) (n + 1) ss)
      (Task.read R (.byDistance D') (n + 1) (.execAll ss)) := by
  cases ss with
  | nil => exact answers_pure .normal
  | cons st ss => exact answers_flow (ih.exec hss.1) fun _ => (ih.execAll hss.2).last

theorem answers_loop (ih : Folded R G D D' n) {c : Expr} (hc : c.Led G fl) {b : Stmt}
    (hb : b.Led R G fl) :
    Answers R G Φ fl (Flow.Folds R G) (loop (.byDistance D) (n + 1) c b)
      (Task.read R (.byDistance D') (n + 1) (.loop c b)) := by
  refine (ih.eval hc).seq fun _ _ v v' hv => ?_
  dsimp only
  rw [hv.truthy]
  split_ifs
  · exact answers_flow (ih.exec hb) fun _ => (ih.loop hc hb).last
  · exact answers_pure .normal

end

/-- **Computations on parts that are led answer each other.** -/
theorem folded {given : RefId → Prop} (hG : G.Within (.ofDistances given D D')) :
    ∀ n, Folded R G D D' n
  | 0 => by
    constructor <;> intros <;> exact answers_exhausted
  | n + 1 =>
    have ih := folded hG n
    ⟨answers_eval hG ih, answers_evalAll ih, answers_apply ih, answers_call ih, answers_exec hG ih,
      answers_execAll ih, answers_loop ih⟩

section
variable {given : RefId → Prop} {Φ : Folding}

theorem answers_readProgram (hG : G.Within (.ofDistances given D D')) (n : Nat) {ss : List Stmt}
    (hss : Stmt.LedAll R G ss []) :
    Answers R G Φ [] (fun _ => Eq) (execProgram (.byDistance D) n ss)
      (readProgram R (.byDistance D') n ss) := by
  induction ss generalizing Φ with
  | nil => exact answers_pure rfl
  | cons st ss ih => exact ((folded hG n).exec hss.1).seq fun _ _ _ _ _ => ih hss.2

/-- **A program that is led does the same when its turns are read.** -/
theorem answers_readInterpret (hG : G.Within (.ofDistances given D D')) (n : Nat) {ss : List Stmt}
    (hss : Stmt.LedAll R G ss []) {m m' : Machine} (hm : m.Folds R G Φ [] m')
    (hglobal : m'.current = Store.global) :
    (interpret (.byDistance D) n ss m).Folds R G Φ [] Store.global (fun _ => Eq)
      (readInterpret R (.byDistance D') n ss m') := by
  have hr := answers_readProgram hG n hss hm
  rw [hglobal] at hr
  unfold interpret readInterpret
  generalize execProgram (.byDistance D) n ss m = r at hr ⊢
  generalize readProgram R (.byDistance D') n ss m' = r' at hr ⊢
  cases hr with
  | ok hle ha hm hcurrent => exact .ok hle ha hm hcurrent
  | fault hle hm hcurrent => exact .fault hle (hm.setCurrent hm.store.root) rfl
  | exhausted => exact .exhausted

end

end Run

end Scriptlet
