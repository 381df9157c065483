import Scriptlet.Proofs.Run.Like

/-!
# Running programs that are alike

Programs that are the same up to lines and identities do the same, step by step, on machines that are
alike: where one ends, the other ends the same way, where one runs out of steps, so does the other. A
fault has the same cause, and its sites are alike.

Results:
* `simulates`: **computations on trees that are alike agree**, by induction on the steps.
* `agrees_execProgram`, `agrees_interpret`: the same of programs.
-/

namespace Scriptlet

open List (Forall₂)

abbrev Flow.Like (P : Pairing) : Flow → Flow → Prop := Flow.Alike (Value.Like P)

namespace Run

open Exec

variable {P : Pairing} {D D' : Distances}

/-- Computations that are granted `n` steps agree on trees and values that are alike. -/
structure Simulates (P : Pairing) (D D' : Distances) (n : Nat) : Prop where
  eval {e e' : Expr} (he : e.Like P e') :
    Agrees P (Value.Like P) (eval (.byDistance D) n e) (eval (.byDistance D') n e')
  evalAll {es es' : List Expr} (hes : Forall₂ (Expr.Like P) es es') :
    Agrees P (Forall₂ (Value.Like P)) (evalAll (.byDistance D) n es)
      (evalAll (.byDistance D') n es')
  apply {f f' : Value} (hf : f.Like P f') {args args' : List Value}
      (hargs : Forall₂ (Value.Like P) args args') {site site' : Token}
      (hsite : site.Like P.line site') :
    Agrees P (Value.Like P) (apply (.byDistance D) n f args site)
      (apply (.byDistance D') n f' args' site')
  call {fn fn' : Function} (hfn : fn.Like P fn') {args args' : List Value}
      (hargs : Forall₂ (Value.Like P) args args') :
    Agrees P (Value.Like P) (call (.byDistance D) n fn args) (call (.byDistance D') n fn' args')
  exec {st st' : Stmt} (hst : st.Like P st') :
    Agrees P (Flow.Like P) (exec (.byDistance D) n st) (exec (.byDistance D') n st')
  execAll {ss ss' : List Stmt} (hss : Forall₂ (Stmt.Like P) ss ss') :
    Agrees P (Flow.Like P) (execAll (.byDistance D) n ss) (execAll (.byDistance D') n ss')
  loop {c c' : Expr} (hc : c.Like P c') {b b' : Stmt} (hb : b.Like P b') :
    Agrees P (Flow.Like P) (loop (.byDistance D) n c b) (loop (.byDistance D') n c' b')

section
variable {n : Nat}

theorem agrees_eval (hD : SameDistances P D D') (ih : Simulates P D D' n) {e e' : Expr}
    (he : e.Like P e') :
    Agrees P (Value.Like P) (eval (.byDistance D) (n + 1) e)
      (eval (.byDistance D') (n + 1) e') := by
  unfold eval
  cases he with
  | literal value => cases value <;> exact agrees_pure (by constructor)
  | group he => exact ih.eval he
  | unary hop he => exact (ih.eval he).seq fun _ _ hv => agrees_ofOperator (unary_like hop hv)
  | binary hl hop hr =>
    exact (ih.eval hl).seq fun _ _ hv => (ih.eval hr).seq fun _ _ hw =>
      agrees_ofOperator (binary_like hop hv hw)
  | logical hl hop hr =>
    refine (ih.eval hl).seq fun v v' hv => ?_
    rw [hv.truthy, hop.is]
    split_ifs
    · exact agrees_pure hv
    · exact ih.eval hr
  | var hr ht => exact agrees_readRef hD hr ht
  | assign hr ht he =>
    exact (ih.eval he).seq fun _ _ hv => (agrees_writeRef hD hr ht hv).seq fun _ _ _ =>
      agrees_pure hv
  | call he hparen hargs =>
    refine (ih.eval he).seq fun f f' hf => (ih.evalAll hargs).seq fun vs vs' hvs => ?_
    rw [hf.arity?, hvs.length_eq]
    cases f'.arity? with
    | none => exact agrees_raise hparen _
    | some arity =>
      dsimp only
      split_ifs
      · exact ih.apply hf hvs hparen
      · exact agrees_raise hparen _
  | get he ht => exact (ih.eval he).seq fun _ _ hv => agrees_property hv ht
  | set ho ht he =>
    refine (ih.eval ho).seq fun v v' hv => ?_
    cases hv with
    | object i =>
      exact (ih.eval he).seq fun _ _ hw => (agrees_setField i ht.lexeme hw).seq fun _ _ _ =>
        agrees_pure hw
    | _ => exact agrees_raise ht _
  | this hr ht => exact agrees_readRef hD hr ht
  | super hr ht hu => exact agrees_superMethod hD hr ht hu

theorem agrees_evalAll (ih : Simulates P D D' n) {es es' : List Expr}
    (hes : Forall₂ (Expr.Like P) es es') :
    Agrees P (Forall₂ (Value.Like P)) (evalAll (.byDistance D) (n + 1) es)
      (evalAll (.byDistance D') (n + 1) es') := by
  unfold evalAll
  cases hes with
  | nil => exact agrees_pure .nil
  | cons he hes =>
    exact (ih.eval he).seq fun _ _ hv => (ih.evalAll hes).seq fun _ _ hvs =>
      agrees_pure (.cons hv hvs)

theorem agrees_apply (ih : Simulates P D D' n) {f f' : Value} (hf : f.Like P f')
    {args args' : List Value} (hargs : Forall₂ (Value.Like P) args args') {site site' : Token}
    (hsite : site.Like P.line site') :
    Agrees P (Value.Like P) (apply (.byDistance D) (n + 1) f args site)
      (apply (.byDistance D') (n + 1) f' args' site') := by
  unfold apply
  cases hf with
  | function hfn => exact ih.call hfn hargs
  | native f => exact agrees_callNative f hargs hsite
  | @cls c c' hc =>
    refine (agrees_newInstance hc).seq fun i i' hi => ?_
    subst hi
    have hmethod := hc.findMethod constructorName
    generalize c.findMethod constructorName = o at hmethod ⊢
    generalize c'.findMethod constructorName = o' at hmethod ⊢
    cases hmethod with
    | none => exact agrees_pure (.object i)
    | some hfn =>
      exact (agrees_bindMethod hfn i).seq fun _ _ hbound => (ih.call hbound hargs).seq fun _ _ _ =>
        agrees_pure (.object i)
  | _ => exact agrees_raise hsite _

theorem agrees_call (ih : Simulates P D D' n) {fn fn' : Function} (hfn : fn.Like P fn')
    {args args' : List Value} (hargs : Forall₂ (Value.Like P) args args') :
    Agrees P (Value.Like P) (call (.byDistance D) (n + 1) fn args)
      (call (.byDistance D') (n + 1) fn' args') := by
  unfold call
  refine (agrees_newFrame (.ofArguments hfn.decl.params hargs) hfn.frame).seq fun f f' hf => ?_
  subst hf
  refine ((ih.execAll hfn.decl.body).inFrame f).seq fun flow flow' hflow => ?_
  cases hflow with
  | normal => exact agrees_pure .null
  | returned hv => exact agrees_pure hv

theorem agrees_exec (hD : SameDistances P D D') (ih : Simulates P D D' n) {st st' : Stmt}
    (hst : st.Like P st') :
    Agrees P (Flow.Like P) (exec (.byDistance D) (n + 1) st)
      (exec (.byDistance D') (n + 1) st') := by
  unfold exec
  cases hst with
  | expr he => exact (ih.eval he).seq fun _ _ _ => agrees_pure .normal
  | @declare name name' _ _ hname hinit =>
    have bound {v v' : Value} (hv : v.Like P v') : Agrees P (Flow.Like P)
        (do define name.lexeme v; return .normal) (do define name'.lexeme v'; return .normal) :=
      (agrees_define hname.lexeme hv).seq fun _ _ _ => agrees_pure .normal
    cases hinit with
    | none => exact (agrees_pure .null).seq fun _ _ hv => bound hv
    | some he => exact (ih.eval he).seq fun _ _ hv => bound hv
  | block hbody =>
    refine agrees_currentFrame.seq fun _ _ hcurrent =>
      (agrees_newFrame .nil hcurrent).seq fun f f' hf => ?_
    subst hf
    exact (ih.execAll hbody).inFrame f
  | branch hc ht ho =>
    refine (ih.eval hc).seq fun v v' hv => ?_
    rw [hv.truthy]
    split_ifs
    · exact ih.exec ht
    · cases ho with
      | none => exact agrees_pure .normal
      | some ho => exact ih.exec ho
  | loop hc hb => exact ih.loop hc hb
  | function hd =>
    exact agrees_currentFrame.seq fun _ _ hcurrent => (agrees_newFunction hd hcurrent).seq
      fun _ _ hfn => (agrees_define hd.name.lexeme (.function hfn)).seq fun _ _ _ =>
        agrees_pure .normal
  | ret _ hvalue =>
    cases hvalue with
    | none => exact agrees_pure (.returned .null)
    | some he => exact (ih.eval he).seq fun _ _ hv => agrees_pure (.returned hv)
  | classDecl hd => exact (agrees_declareClass hD hd).seq fun _ _ _ => agrees_pure .normal

theorem agrees_execAll (ih : Simulates P D D' n) {ss ss' : List Stmt}
    (hss : Forall₂ (Stmt.Like P) ss ss') :
    Agrees P (Flow.Like P) (execAll (.byDistance D) (n + 1) ss)
      (execAll (.byDistance D') (n + 1) ss') := by
  unfold execAll
  cases hss with
  | nil => exact agrees_pure .normal
  | cons hst hss =>
    refine (ih.exec hst).seq fun flow flow' hflow => ?_
    cases hflow with
    | normal => exact ih.execAll hss
    | returned hv => exact agrees_pure (.returned hv)

theorem agrees_loop (ih : Simulates P D D' n) {c c' : Expr} (hc : c.Like P c') {b b' : Stmt}
    (hb : b.Like P b') :
    Agrees P (Flow.Like P) (loop (.byDistance D) (n + 1) c b)
      (loop (.byDistance D') (n + 1) c' b') := by
  unfold loop
  refine (ih.eval hc).seq fun v v' hv => ?_
  rw [hv.truthy]
  split_ifs
  · refine (ih.exec hb).seq fun flow flow' hflow => ?_
    cases hflow with
    | normal => exact ih.loop hc hb
    | returned hv => exact agrees_pure (.returned hv)
  · exact agrees_pure .normal

end

/-- **Computations on trees that are alike agree.** -/
theorem simulates (hD : SameDistances P D D') : ∀ n, Simulates P D D' n
  | 0 => by
    constructor <;> intros <;> exact agrees_exhausted
  | n + 1 =>
    have ih := simulates hD n
    ⟨agrees_eval hD ih, agrees_evalAll ih, agrees_apply ih, agrees_call ih, agrees_exec hD ih,
      agrees_execAll ih, agrees_loop ih⟩

theorem agrees_execProgram (hD : SameDistances P D D') (n : Nat) {ss ss' : List Stmt}
    (hss : Forall₂ (Stmt.Like P) ss ss') :
    Agrees P Eq (execProgram (.byDistance D) n ss) (execProgram (.byDistance D') n ss') := by
  induction hss with
  | nil => exact agrees_pure rfl
  | cons hst _ ih => exact ((simulates hD n).exec hst).seq fun _ _ _ => ih

/-- **Programs that are alike do the same on machines that are alike.** -/
theorem agrees_interpret (hD : SameDistances P D D') (n : Nat) {ss ss' : List Stmt}
    (hss : Forall₂ (Stmt.Like P) ss ss') :
    Agrees P Eq (interpret (.byDistance D) n ss) (interpret (.byDistance D') n ss') := by
  intro m m' hm
  have hr := agrees_execProgram hD n hss hm
  unfold interpret
  generalize execProgram (.byDistance D) n ss m = r at hr ⊢
  generalize execProgram (.byDistance D') n ss' m' = r' at hr ⊢
  cases hr with
  | ok ha hm => exact .ok ha hm
  | fault hf hm => exact .fault hf ⟨hm.store, rfl, hm.nextId, hm.output, hm.capacity, hm.clock⟩
  | exhausted => exact .exhausted

end Run

end Scriptlet
