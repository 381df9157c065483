import Scriptlet.Proofs.Run.Moment
import Scriptlet.Proofs.Scope.Order

/-!
# Distances and names

A program may be run by the distances of its references or by looking their names up along the
frames. Where no scope declares a name only after it is referred to, both find the same frame: those
further in do not bind the name, since their scopes do not declare it at all. So every computation
does the same either way.

Results:
* `At.owner`: **the frame at the distance of a name is the first that binds it.**
* `same_results`: computations whose references agree at all moments have the same result.
* `same_interpret`: a program in order has the same result by name as by distance.
-/

namespace Scriptlet.Run

open Scope Exec

/-! ## The first frame that binds a name -/

/-- The first frame that binds a name stands for the first scope that declares it; if there is none,
the name is looked up in the global frame. -/
theorem Matches.owner {P : List Stmt → Prop} {Λ : Layout} {st : Store} {f : FrameId}
    {scopes : List Names} {declared : List (List String)} {x : String}
    (h : Matches Λ st f scopes declared) (hst : HeapFits P Λ st)
    (hsettled : Settled x False scopes declared)
    (hread : ∀ scope ∈ scopes, scope.lookup x ≠ some false) :
    st.owner? f x =
      match distanceIn scopes x with
      | some d => st.ancestor f d
      | none => st.owner? Store.global x := by
  induction h with
  | global => rfl
  | @frame f g scope rest names declared layout bound link outer ih =>
    rw [distanceIn_cons, Store.owner?_eq hst.links f x]
    cases hl : scope.lookup x with
    | some b =>
      have htrue : scope.lookup x = some true := by
        cases b with
        | true => exact hl
        | false => exact absurd hl (hread scope List.mem_cons_self)
      rw [if_pos (bound x htrue)]
      rfl
    | none =>
      have hlocal : f ≠ Store.global := by
        rintro rfl
        rw [hst.outermost] at link
        cases link
      have hfree : ¬ (st.get? f x).isSome = true := fun hbound => by
        have hmem := hst.names f names hlocal layout x hbound
        rcases hsettled.1 hmem with hdeclared | hcoming
        · rw [hl] at hdeclared
          cases hdeclared
        · exact hcoming
      rw [if_neg hfree, link, Option.bind_some,
        ih hsettled.2 fun scope hs => hread scope (List.mem_cons_of_mem _ hs)]
      cases distanceIn rest x with
      | none => rfl
      | some d => exact (Store.ancestor_succ link d).symm

variable {W : World} {Λ : Layout} {m : Machine} {v : Visit}

/-- **The frame at the distance of a name is the first that binds it.** -/
theorem At.owner (h : At W Λ m v) (ht : Timely v) {x : String} (hx : x ∈ v.code.mentions)
    (hcoming : x ∉ v.code.coming) :
    m.store.owner? m.current x =
      match distanceIn v.state.scopes x with
      | some d => m.store.ancestor m.current d
      | none => m.store.owner? Store.global x := by
  refine h.frames.owner h.heap ((ht.settled x hx).mono fun _ hc => hcoming hc)
    fun scope hscope hl => ?_
  cases hs : v.state.scopes with
  | nil => rw [hs] at hscope; cases hscope
  | cons inner rest =>
    rw [hs] at hscope
    rcases List.mem_cons.mp hscope with rfl | hscope
    · have hun : v.state.isUnreadable x = true := isUnreadable_iff.mpr ⟨scope, by rw [hs]; rfl, hl⟩
      rw [ht.readable x hx] at hun
      cases hun
    · exact h.sound.outer scope (by rw [hs]; exact hscope) x hl

/-! ## References -/

theorem Refers.mentions {code : Code} {ref : RefId} {name : Token} (h : Refers code ref name) :
    name.lexeme ∈ code.mentions := by
  cases h <;> simp [Code.mentions, Expr.mentions, Stmt.mentions, ClassDecl.mentions]

theorem Refers.not_coming {D : Distances} {ref : RefId} {name : Token}
    (h : Refers v.code ref name) (hv : Sound D v) : name.lexeme ∉ v.code.coming := by
  obtain ⟨code, s, ns⟩ := v
  cases h with
  | superclass =>
    rw [Code.coming, List.mem_singleton]
    exact hv.superclass.2
  | _ => exact List.not_mem_nil

/-- The frame that a reference leads to, by name and by distance. -/
theorem At.owner_refers {ref : RefId} {name : Token} (h : At W Λ m v) (ht : Timely v)
    (href : Refers v.code ref name) :
    m.store.owner? m.current name.lexeme =
      match W.distances[ref]? with
      | some d => m.store.ancestor m.current d
      | none => m.store.owner? Store.global name.lexeme := by
  rw [href.distance h.sound]
  exact h.owner ht href.mentions (href.not_coming h.sound)

theorem At.readRef_byName {ref : RefId} {name : Token} (h : At W Λ m v) (ht : Timely v)
    (href : Refers v.code ref name) :
    readRef .byName ref name m = readRef W.scoping ref name m := by
  unfold readRef
  dsimp only
  rw [Store.lookup, h.owner_refers ht href]
  cases W.distances[ref]? <;> rfl

theorem At.writeRef_byName {ref : RefId} {name : Token} (h : At W Λ m v) (ht : Timely v)
    (href : Refers v.code ref name) (value : Value) :
    writeRef .byName ref name value m = writeRef W.scoping ref name value m := by
  unfold writeRef
  dsimp only
  rw [assignFrom, h.owner_refers ht href]
  cases W.distances[ref]? <;> rfl

theorem At.superMethod_byName {ref : RefId} {keyword method : Token} {s : State}
    {ns : List (List String)} (h : At W Λ m ⟨.expr (.super ref keyword method), s, ns⟩)
    (ht : Timely ⟨.expr (.super ref keyword method), s, ns⟩) :
    superMethod .byName ref keyword method m = superMethod W.scoping ref keyword method m := by
  obtain ⟨k, hd, hsuper, hthis⟩ := h.sound.super
  have hkeyword : m.store.owner? m.current keyword.lexeme = m.store.ancestor m.current (k + 1) := by
    rw [h.owner_refers ht .super, hd]
  have hreceiver : m.store.owner? m.current "this" = m.store.ancestor m.current k := by
    have hmem : "this" ∈ Code.mentions (.expr (.super ref keyword method)) := by
      simp [Code.mentions, Expr.mentions]
    rw [h.owner ht hmem List.not_mem_nil, hthis]
  have hreadSuper : readSuper .byName ref keyword m = readSuper W.scoping ref keyword m := by
    simp only [readSuper, Store.lookup, Store.getAt, hkeyword, hd]
  have hreadReceiver :
      readReceiver .byName ref keyword m = readReceiver W.scoping ref keyword m := by
    simp only [readReceiver, thisToken, Store.lookup, Store.getAt, hreceiver, hd,
      Nat.add_sub_cancel]
  obtain ⟨A, parent, -, -, hparent, hobject, -⟩ := h.super_reads rfl
  unfold superMethod
  rw [bind_of_ok (hreadSuper.trans hparent), bind_of_ok hparent]
  dsimp only
  rw [bind_of_ok (hreadReceiver.trans hobject), bind_of_ok hobject]

/-- Computations that agree on a machine, and go on in the same way. -/
theorem bind_congr {α β : Type} {x y : Exec α} {f g : α → Exec β} (hxy : x m = y m)
    (hfg : ∀ a m', y m = .ok a m' → f a m' = g a m') : (x >>= f) m = (y >>= g) m := by
  show Exec.bind x f m = Exec.bind y g m
  unfold Exec.bind
  rw [hxy]
  cases hy : y m with
  | ok a m' => exact hfg a m' hy
  | fault f m' => rfl
  | exhausted => rfl

theorem declareClass_congr {σ σ' : Scoping} {decl : ClassDecl}
    (h : ∀ parent ∈ decl.superclass,
      readRef σ parent.ref parent.name m = readRef σ' parent.ref parent.name m) :
    declareClass σ decl m = declareClass σ' decl m := by
  have hparent : readParent σ decl.superclass m = readParent σ' decl.superclass m := by
    unfold readParent
    cases hs : decl.superclass with
    | none => rfl
    | some parent => exact bind_congr (h parent hs) fun _ _ _ => rfl
  rw [declareClass_eq, declareClass_eq]
  exact bind_congr (bind_congr hparent fun _ _ _ => rfl) fun _ _ _ => rfl

/-! ## Results -/

theorem inFrame_congr {α : Type} {x y : Exec α} {f : FrameId}
    (h : x { m with current := f } = y { m with current := f }) :
    inFrame f x m = inFrame f y m := by
  unfold inFrame
  rw [h]

section
variable {σ σ' : Scoping} {n : Nat}

/-- What a computation looks up itself is the same one way as the other. -/
def SameRefs (σ σ' : Scoping) (a : Moment) : Prop :=
  match a.task with
  | .eval (.var ref name) => readRef σ' ref name a.machine = readRef σ ref name a.machine
  | .eval (.this ref name) => readRef σ' ref name a.machine = readRef σ ref name a.machine
  | .eval (.super ref keyword method) =>
    superMethod σ' ref keyword method a.machine = superMethod σ ref keyword method a.machine
  | .write ref name _ value =>
    writeRef σ' ref name value a.machine = writeRef σ ref name value a.machine
  | .exec (.classDecl decl) => declareClass σ' decl a.machine = declareClass σ decl a.machine
  | _ => True

/-- It is so at all moments of the run of a computation. -/
def SameThroughout (σ σ' : Scoping) (a : Moment) : Prop := ∀ b, Reaches σ a b → SameRefs σ σ' b

theorem SameThroughout.here {a : Moment} (h : SameThroughout σ σ' a) : SameRefs σ σ' a := h a .refl

theorem SameThroughout.into {a b : Moment} (h : SameThroughout σ σ' a) (hab : Starts σ a b) :
    SameThroughout σ σ' b := fun c hc => h c (.head hab hc)

/-- **Computations that are granted `n` steps have the same results.** -/
structure SameResults (σ σ' : Scoping) (n : Nat) : Prop where
  eval {e m} (h : SameThroughout σ σ' ⟨n, .eval e, m⟩) : eval σ' n e m = eval σ n e m
  evalAll {es m} (h : SameThroughout σ σ' ⟨n, .evalAll es, m⟩) :
    evalAll σ' n es m = evalAll σ n es m
  apply {f args site m} (h : SameThroughout σ σ' ⟨n, .apply f args site, m⟩) :
    apply σ' n f args site m = apply σ n f args site m
  call {fn args m} (h : SameThroughout σ σ' ⟨n, .call fn args, m⟩) :
    call σ' n fn args m = call σ n fn args m
  exec {st m} (h : SameThroughout σ σ' ⟨n, .exec st, m⟩) : exec σ' n st m = exec σ n st m
  execAll {ss m} (h : SameThroughout σ σ' ⟨n, .execAll ss, m⟩) :
    execAll σ' n ss m = execAll σ n ss m
  loop {c b m} (h : SameThroughout σ σ' ⟨n, .loop c b, m⟩) : loop σ' n c b m = loop σ n c b m

theorem same_eval_succ (ih : SameResults σ σ' n) {e : Expr}
    (h : SameThroughout σ σ' ⟨n + 1, .eval e, m⟩) : eval σ' (n + 1) e m = eval σ (n + 1) e m := by
  cases e with
  | literal value => rfl
  | group inner => exact ih.eval (h.into .group)
  | unary op operand => exact bind_congr (ih.eval (h.into .operand)) fun _ _ _ => rfl
  | binary l op r =>
    refine bind_congr (ih.eval (h.into .left)) fun x m₁ hx => ?_
    exact bind_congr (ih.eval (h.into (.right hx))) fun _ _ _ => rfl
  | logical l op r =>
    refine bind_congr (ih.eval (h.into .leftLogical)) fun x m₁ hx => ?_
    cases hop : x.truthy == op.is .pipePipe with
    | true => rfl
    | false => exact ih.eval (h.into (.rightLogical hx hop))
  | var ref name => exact h.here
  | assign ref name e =>
    refine bind_congr (ih.eval (h.into .assigned)) fun v m₁ hv => ?_
    exact bind_congr (h.into (.write hv)).here fun _ _ _ => rfl
  | call callee paren args =>
    refine bind_congr (ih.eval (h.into .callee)) fun f m₁ hf => ?_
    refine bind_congr (ih.evalAll (h.into (.arguments hf))) fun vs m₂ hvs => ?_
    cases harity : f.arity? with
    | none => rfl
    | some arity =>
      dsimp only
      split_ifs with hlength
      · exact ih.apply (h.into (.applied hf hvs (by rw [harity, hlength])))
      · rfl
  | get object name => exact bind_congr (ih.eval (h.into .object)) fun _ _ _ => rfl
  | set object name value =>
    refine bind_congr (ih.eval (h.into .setObject)) fun x m₁ hx => ?_
    cases x with
    | object i => exact bind_congr (ih.eval (h.into (.setValue hx))) fun _ _ _ => rfl
    | _ => rfl
  | this ref keyword => exact h.here
  | super ref keyword method => exact h.here

theorem same_evalAll_succ (ih : SameResults σ σ' n) {es : List Expr}
    (h : SameThroughout σ σ' ⟨n + 1, .evalAll es, m⟩) :
    evalAll σ' (n + 1) es m = evalAll σ (n + 1) es m := by
  cases es with
  | nil => rfl
  | cons e es =>
    refine bind_congr (ih.eval (h.into .firstExpr)) fun v m₁ hv => ?_
    exact bind_congr (ih.evalAll (h.into (.otherExprs hv))) fun _ _ _ => rfl

theorem same_apply_succ (ih : SameResults σ σ' n) {f : Value} {args : List Value} {site : Token}
    (h : SameThroughout σ σ' ⟨n + 1, .apply f args site, m⟩) :
    apply σ' (n + 1) f args site m = apply σ (n + 1) f args site m := by
  cases f with
  | function f => exact ih.call (h.into .called)
  | cls c =>
    refine bind_congr rfl fun i m₁ hi => ?_
    cases hmethod : c.findMethod constructorName with
    | none => rfl
    | some method =>
      refine bind_congr rfl fun bound m₂ hbound => ?_
      exact bind_congr (ih.call (h.into (.constructed hi hmethod hbound))) fun _ _ _ => rfl
  | _ => rfl

theorem same_call_succ (ih : SameResults σ σ' n) {fn : Function} {args : List Value}
    (h : SameThroughout σ σ' ⟨n + 1, .call fn args, m⟩) :
    call σ' (n + 1) fn args m = call σ (n + 1) fn args m := by
  refine bind_congr rfl fun frame m₁ hframe => ?_
  exact bind_congr (inFrame_congr (ih.execAll (h.into (.body hframe)))) fun _ _ _ => rfl

theorem same_exec_succ (ih : SameResults σ σ' n) {st : Stmt}
    (h : SameThroughout σ σ' ⟨n + 1, .exec st, m⟩) :
    exec σ' (n + 1) st m = exec σ (n + 1) st m := by
  cases st with
  | expr e => exact bind_congr (ih.eval (h.into .evaluated)) fun _ _ _ => rfl
  | declare name init =>
    cases init with
    | none => rfl
    | some e => exact bind_congr (ih.eval (h.into .init)) fun _ _ _ => rfl
  | block body =>
    refine bind_congr rfl fun outer m₁ houter => ?_
    cases houter
    refine bind_congr rfl fun frame m₂ hframe => ?_
    exact inFrame_congr (ih.execAll (h.into (.block hframe)))
  | branch c t o =>
    refine bind_congr (ih.eval (h.into .condition)) fun x m₁ hx => ?_
    cases htruthy : x.truthy with
    | true => exact ih.exec (h.into (.thenDo hx htruthy))
    | false =>
      cases o with
      | none => rfl
      | some e => exact ih.exec (h.into (.elseDo hx htruthy))
  | loop c b => exact ih.loop (h.into .looping)
  | function d => rfl
  | ret keyword value =>
    cases value with
    | none => rfl
    | some e => exact bind_congr (ih.eval (h.into .returned)) fun _ _ _ => rfl
  | classDecl d => exact bind_congr h.here fun _ _ _ => rfl

theorem same_execAll_succ (ih : SameResults σ σ' n) {ss : List Stmt}
    (h : SameThroughout σ σ' ⟨n + 1, .execAll ss, m⟩) :
    execAll σ' (n + 1) ss m = execAll σ (n + 1) ss m := by
  cases ss with
  | nil => rfl
  | cons st ss =>
    refine bind_congr (ih.exec (h.into .firstStmt)) fun flow m₁ hflow => ?_
    cases flow with
    | normal => exact ih.execAll (h.into (.otherStmts hflow))
    | returned v => rfl

theorem same_loop_succ (ih : SameResults σ σ' n) {c : Expr} {b : Stmt}
    (h : SameThroughout σ σ' ⟨n + 1, .loop c b, m⟩) :
    loop σ' (n + 1) c b m = loop σ (n + 1) c b m := by
  refine bind_congr (ih.eval (h.into .loopCondition)) fun x m₁ hx => ?_
  cases htruthy : x.truthy with
  | true =>
    refine bind_congr (ih.exec (h.into (.loopBody hx htruthy))) fun flow m₂ hflow => ?_
    cases flow with
    | normal => exact ih.loop (h.into (.loopAgain hx htruthy hflow))
    | returned v => rfl
  | false => rfl

/-- **Computations whose references agree at all moments have the same results.** -/
theorem same_results (σ σ' : Scoping) (n : Nat) : SameResults σ σ' n := by
  induction n with
  | zero =>
    exact ⟨fun _ => rfl, fun _ => rfl, fun _ => rfl, fun _ => rfl, fun _ => rfl, fun _ => rfl,
      fun _ => rfl⟩
  | succ n ih =>
    exact ⟨same_eval_succ ih, same_evalAll_succ ih, same_apply_succ ih, same_call_succ ih,
      same_exec_succ ih, same_execAll_succ ih, same_loop_succ ih⟩

theorem same_execProgram {ss : List Stmt} (h : SameThroughout σ σ' ⟨n, .program ss, m⟩) :
    execProgram σ' n ss m = execProgram σ n ss m := by
  induction ss generalizing m with
  | nil => rfl
  | cons st ss ih =>
    refine bind_congr ((same_results σ σ' n).exec (h.into .firstOfProgram)) fun flow m₁ hflow => ?_
    exact ih (h.into (.restOfProgram hflow))

end

/-- **Where no name is declared only later, references agree by name and by distance.** -/
theorem same_refs {a : Moment} (h : TaskFits W Λ a.machine a.task)
    (htimely : ∀ v, Known W.programs v → Timely v) : SameRefs W.scoping .byName a := by
  obtain ⟨n, t, m⟩ := a
  cases t with
  | eval e =>
    obtain ⟨s, ns, hat⟩ := h
    have ht := htimely _ hat.known
    cases e with
    | var ref name => exact hat.readRef_byName ht .var
    | this ref keyword => exact hat.readRef_byName ht .this
    | super ref keyword method => exact hat.superMethod_byName ht
    | _ => trivial
  | write ref name e value =>
    obtain ⟨-, s, ns, hat⟩ := h
    exact hat.writeRef_byName (htimely _ hat.known) .assign value
  | exec st =>
    obtain ⟨s, ns, hat⟩ := h
    cases st with
    | classDecl decl =>
      refine declareClass_congr fun parent hparent => ?_
      obtain ⟨name, superclass, interface, methods⟩ := decl
      cases hparent
      exact hat.readRef_byName (htimely _ hat.known) .superclass
    | _ => trivial
  | _ => trivial

/-- **A program has the same result by name as by distance**, if all programs it may call functions
of are in order. -/
theorem same_interpret {program : List Stmt} (n : Nat) (hprogram : W.programs program)
    (h : HeapFits W.programs Λ m.store) (hcurrent : m.current = Store.global)
    (horder : ∀ program, W.programs program → Stmt.OrderedAll program) :
    interpret .byName n program m = interpret W.scoping n program m := by
  have htimely : ∀ v, Known W.programs v → Timely v := by
    rintro v ⟨program, hprogram, hv⟩
    exact hv.timely (W.resolved program hprogram) (horder program hprogram)
  have hsame : SameThroughout W.scoping .byName ⟨n, .program program, m⟩ := by
    intro b hb
    obtain ⟨Λ', hb⟩ := hb.fits ⟨Λ, {}, [], at_program hprogram h hcurrent⟩
    exact same_refs hb htimely
  unfold interpret
  rw [same_execProgram hsame]

end Scriptlet.Run
