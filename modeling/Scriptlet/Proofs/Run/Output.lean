import Scriptlet.Proofs.Run.Growth
import Scriptlet.Proofs.Run.Plan

/-!
# What a run writes

Operations other than writing neither look at what has been written nor at how much can be, and leave
both as they are (`Quiet`). A plan that writes no line itself is made of such operations and of other
computations (`Plan.Silent`); the only other plan is that of a call of the built-in function. So lines
are only added, from the start of a computation to its end and up to everything that it starts.

Results:
* `Task.silent_or`: only a call of the built-in function writes.
* `Task.run_appends`, `Reaches.appends`: **lines are only added.**
-/

namespace Scriptlet

/-- The machine that has written these lines and can write so many. -/
def Machine.writing (o : Array String) (c : Option Nat) (m : Machine) : Machine :=
  { m with output := o, capacity := c }

/-- The result with its machine changed. -/
def Result.mapMachine {α : Type} (f : Machine → Machine) : Result α → Result α
  | .ok v m => .ok v (f m)
  | .fault e m => .fault e (f m)
  | .exhausted => .exhausted

namespace Run

open Exec

/-! ## Operations that do not write -/

/-- **The operation has nothing to do with the output.** -/
def Quiet {α : Type} (x : Exec α) : Prop :=
  ∀ m o c, x (m.writing o c) = (x m).mapMachine (Machine.writing o c)

section
variable {α β : Type} {x : Exec α} {f : α → Exec β} {m m' : Machine}

theorem quiet_pure (v : α) : Quiet (pure v : Exec α) := fun _ _ _ => rfl

theorem Quiet.bind (hx : Quiet x) (hf : ∀ v, Quiet (f v)) : Quiet (x >>= f) := by
  intro m o c
  change Exec.bind x f _ = (Exec.bind x f m).mapMachine _
  unfold Exec.bind
  rw [hx m o c]
  cases x m with
  | ok v m' => exact hf v m' o c
  | fault e m' => rfl
  | exhausted => rfl

theorem Quiet.map {g : α → β} (hx : Quiet x) : Quiet (g <$> x) :=
  hx.bind fun v => quiet_pure (g v)

/-- What has been written and how much can be stays as it is. -/
theorem Quiet.keeps (hx : Quiet x) (h : (x m).machine? = some m') :
    m'.output = m.output ∧ m'.capacity = m.capacity := by
  have hsame : x m = (x m).mapMachine (Machine.writing m.output m.capacity) :=
    hx m m.output m.capacity
  cases hr : x m with
  | ok v m₁ =>
    rw [hr] at h hsame
    cases h
    injection hsame with _ hm
    rw [hm]
    exact ⟨rfl, rfl⟩
  | fault e m₁ =>
    rw [hr] at h hsame
    cases h
    injection hsame with _ hm
    rw [hm]
    exact ⟨rfl, rfl⟩
  | exhausted =>
    rw [hr] at h
    cases h

theorem quiet_raise (site : Token) (cause : Cause) : Quiet (raise site cause : Exec α) :=
  fun _ _ _ => rfl

theorem quiet_ofOperator (r : Except Fault α) : Quiet (ofOperator r) := by
  intro m o c
  cases r <;> rfl

theorem quiet_currentFrame : Quiet currentFrame := fun _ _ _ => rfl

theorem quiet_newFrame (bs : Bindings) (e : FrameId) : Quiet (newFrame bs e) := fun _ _ _ => rfl

theorem quiet_define (name : String) (v : Value) : Quiet (define name v) := fun _ _ _ => rfl

theorem quiet_assignIn (frame : Option FrameId) (name : Token) (v : Value) :
    Quiet (assignIn frame name v) := by
  intro m o c
  cases frame <;> rfl

theorem quiet_assignFrom (frame : FrameId) (name : Token) (v : Value) :
    Quiet (assignFrom frame name v) :=
  fun m => quiet_assignIn (m.store.owner? frame name.lexeme) name v m

/-- An operation that looks something up in the store and yields it, or faults. -/
theorem quiet_ofOption {found : Machine → Option α} (e : Fault)
    (h : ∀ m o c, found (m.writing o c) = found m) : Quiet fun m => ofOption (found m) e m := by
  intro m o c
  change ofOption (found _) e _ = (ofOption (found m) e m).mapMachine _
  rw [h]
  cases found m <;> rfl

theorem quiet_readRef (σ : Scoping) (ref : RefId) (name : Token) : Quiet (readRef σ ref name) :=
  quiet_ofOption _ fun _ _ _ => rfl

theorem quiet_writeRef (σ : Scoping) (ref : RefId) (name : Token) (v : Value) :
    Quiet (writeRef σ ref name v) := by
  intro m
  unfold writeRef
  cases σ with
  | byName => exact quiet_assignFrom m.current name v m
  | byDistance distances =>
    dsimp only
    cases distances[ref]? with
    | none => exact quiet_assignFrom Store.global name v m
    | some d => exact quiet_assignIn (m.store.ancestor m.current d) name v m

theorem quiet_readSuper (σ : Scoping) (ref : RefId) (keyword : Token) :
    Quiet (readSuper σ ref keyword) := by
  unfold readSuper
  cases σ with
  | byName => exact quiet_ofOption _ fun _ _ _ => rfl
  | byDistance distances =>
    dsimp only
    cases distances[ref]? with
    | none => exact quiet_raise keyword .superOutsideClass
    | some d => exact quiet_ofOption _ fun _ _ _ => rfl

theorem quiet_readReceiver (σ : Scoping) (ref : RefId) (keyword : Token) :
    Quiet (readReceiver σ ref keyword) := by
  unfold readReceiver
  cases σ with
  | byName => exact quiet_ofOption _ fun _ _ _ => rfl
  | byDistance distances =>
    dsimp only
    cases distances[ref]? with
    | none => exact quiet_raise keyword .superOutsideClass
    | some d => exact quiet_ofOption _ fun _ _ _ => rfl

theorem quiet_freshId : Quiet freshId := fun _ _ _ => rfl

theorem quiet_newFunction (decl : FunctionDecl) (frame : FrameId) :
    Quiet (newFunction decl frame) := quiet_freshId.bind fun _ => quiet_pure _

theorem quiet_newMethods (frame : FrameId) (decls : List FunctionDecl) (made : List Function) :
    Quiet (newMethods frame decls made) := by
  induction decls generalizing made with
  | nil => exact quiet_pure made
  | cons decl decls ih => exact (quiet_newFunction decl frame).bind fun f => ih (f :: made)

theorem quiet_bindMethod (method : Function) (i : InstanceId) : Quiet (bindMethod method i) :=
  (quiet_newFrame _ _).bind fun _ => quiet_newFunction _ _

theorem quiet_newInstance (c : Class) : Quiet (newInstance c) := fun _ _ _ => rfl

theorem quiet_setField (i : InstanceId) (name : String) (v : Value) : Quiet (setField i name v) :=
  fun _ _ _ => rfl

theorem quiet_instanceProperty (i : InstanceId) (name : Token) :
    Quiet (instanceProperty i name) := by
  intro m o c
  have hstore : (m.writing o c).store = m.store := rfl
  unfold instanceProperty
  rw [hstore]
  cases m.store.field? i name.lexeme with
  | some v => rfl
  | none =>
    dsimp only
    cases (m.store.class? i).bind (Class.findMethod name.lexeme) with
    | some method => exact (quiet_bindMethod method i).map m o c
    | none => rfl

theorem quiet_property (v : Value) (name : Token) : Quiet (property v name) := by
  unfold property
  cases v with
  | object i => exact quiet_instanceProperty i name
  | library l => exact quiet_ofOption _ fun _ _ _ => rfl
  | _ => exact quiet_raise name .noProperties

theorem quiet_superMethod (σ : Scoping) (ref : RefId) (keyword method : Token) :
    Quiet (superMethod σ ref keyword method) := by
  refine (quiet_readSuper σ ref keyword).bind fun v => ?_
  cases v with
  | cls parent =>
    refine (quiet_readReceiver σ ref keyword).bind fun w => ?_
    cases w with
    | object i =>
      dsimp only
      cases parent.findMethod method.lexeme with
      | none => exact quiet_raise _ _
      | some found => exact (quiet_bindMethod found i).map
    | _ => exact quiet_raise _ _
  | _ => exact quiet_raise _ _

theorem quiet_readParent (σ : Scoping) (superclass : Option Superclass) :
    Quiet (readParent σ superclass) := by
  unfold readParent
  cases superclass with
  | none => exact quiet_pure none
  | some parent =>
    refine (quiet_readRef σ parent.ref parent.name).bind fun v => ?_
    cases v with
    | cls c => exact quiet_pure _
    | _ => exact quiet_raise _ _

theorem quiet_methodFrame (parent : Option Class) (frame : FrameId) :
    Quiet (methodFrame parent frame) := by
  cases parent with
  | none => exact quiet_pure frame
  | some c => exact quiet_newFrame _ frame

theorem quiet_declareClass (σ : Scoping) (decl : ClassDecl) : Quiet (declareClass σ decl) := by
  rw [declareClass_eq]
  refine Quiet.bind ?_ fun made => quiet_assignFrom _ _ _
  exact (quiet_readParent σ decl.superclass).bind fun parent => (quiet_define _ _).bind fun _ =>
    quiet_currentFrame.bind fun frame => (quiet_methodFrame parent frame).bind fun inner =>
      (quiet_newMethods _ _ _).bind fun _ => quiet_freshId.bind fun _ => quiet_pure _

end

/-- No line is written along the plan, and its operations satisfy `Q`. -/
def Plan.Silent {α : Type} (Q : ∀ {β : Type}, Exec β → Prop) : Plan α → Prop
  | .done _ => True
  | .operate x next => Q x ∧ ∀ v, (next v).Silent Q
  | .use _ next => ∀ v, (next v).Silent Q
  | .useIn _ _ next => ∀ v, (next v).Silent Q
  | .log .. => False

theorem silent_exec (σ : Scoping) (st : Stmt) : ((Task.exec st).plan σ).Silent Quiet := by
  cases st with
  | expr e => exact fun _ => trivial
  | declare name init =>
    cases init with
    | none => exact ⟨quiet_define _ _, fun _ => trivial⟩
    | some e => exact fun v => ⟨quiet_define _ v, fun _ => trivial⟩
  | block body => exact ⟨quiet_currentFrame, fun f => ⟨quiet_newFrame _ f, fun _ _ => trivial⟩⟩
  | branch c t o =>
    intro x
    dsimp only
    split_ifs
    · exact fun _ => trivial
    · cases o with
      | none => trivial
      | some e => exact fun _ => trivial
  | loop c b => exact fun _ => trivial
  | function decl =>
    exact ⟨quiet_currentFrame, fun f => ⟨quiet_newFunction _ f, fun _ =>
      ⟨quiet_define _ _, fun _ => trivial⟩⟩⟩
  | ret keyword value =>
    cases value with
    | none => trivial
    | some e => exact fun _ => trivial
  | classDecl decl => exact ⟨quiet_declareClass σ decl, fun _ => trivial⟩

theorem silent_eval (σ : Scoping) (e : Expr) : ((Task.eval e).plan σ).Silent Quiet := by
  cases e with
  | literal value => trivial
  | group e => exact fun _ => trivial
  | unary op e => exact fun _ => ⟨quiet_ofOperator _, fun _ => trivial⟩
  | binary l op r => exact fun _ _ => ⟨quiet_ofOperator _, fun _ => trivial⟩
  | logical l op r =>
    intro x
    dsimp only
    split_ifs
    · trivial
    · exact fun _ => trivial
  | var ref name => exact ⟨quiet_readRef σ ref name, fun _ => trivial⟩
  | assign ref name e => exact fun _ _ => trivial
  | call e paren args =>
    intro f vs
    dsimp only
    cases f.arity? with
    | none => exact ⟨quiet_raise _ _, fun _ => trivial⟩
    | some arity =>
      dsimp only
      split_ifs
      · exact fun _ => trivial
      · exact ⟨quiet_raise _ _, fun _ => trivial⟩
  | get e name => exact fun x => ⟨quiet_property x name, fun _ => trivial⟩
  | set o name e =>
    intro x
    cases x with
    | object i => exact fun v => ⟨quiet_setField i _ v, fun _ => trivial⟩
    | _ => exact ⟨quiet_raise _ _, fun _ => trivial⟩
  | this ref keyword => exact ⟨quiet_readRef σ ref keyword, fun _ => trivial⟩
  | super ref keyword method => exact ⟨quiet_superMethod σ ref keyword method, fun _ => trivial⟩

/-- **Only a call of the built-in function writes.** -/
theorem Task.silent_or (σ : Scoping) (t : Task) :
    (t.plan σ).Silent Quiet ∨ ∃ args site, t = .apply (.native .log) args site := by
  cases t with
  | program ss =>
    cases ss with
    | nil => exact .inl trivial
    | cons st ss => exact .inl fun _ _ => trivial
  | exec st => exact .inl (silent_exec σ st)
  | execAll ss =>
    cases ss with
    | nil => exact .inl trivial
    | cons st ss =>
      refine .inl fun flow => ?_
      cases flow with
      | normal => exact fun _ => trivial
      | returned value => trivial
  | loop c b =>
    refine .inl fun x => ?_
    dsimp only
    split_ifs
    · intro flow
      cases flow with
      | normal => exact fun _ => trivial
      | returned value => trivial
    · trivial
  | eval e => exact .inl (silent_eval σ e)
  | evalAll es =>
    cases es with
    | nil => exact .inl trivial
    | cons e es => exact .inl fun _ _ => trivial
  | apply callee args site =>
    cases callee with
    | function f => exact .inl fun _ => trivial
    | native f =>
      cases f with
      | log => exact .inr ⟨args, site, rfl⟩
      | now => exact .inl ⟨fun _ _ _ => rfl, fun _ => trivial⟩
    | cls c =>
      refine .inl ⟨quiet_newInstance c, fun i => ?_⟩
      dsimp only
      cases c.findMethod constructorName with
      | none => trivial
      | some method => exact ⟨quiet_bindMethod method i, fun _ _ => trivial⟩
    | _ => exact .inl ⟨quiet_raise _ _, fun _ => trivial⟩
  | call f args =>
    refine .inl ⟨quiet_newFrame _ _, fun frame flow => ?_⟩
    cases flow <;> trivial
  | write ref name e value => exact .inl ⟨quiet_writeRef σ ref name value, fun _ => trivial⟩

/-! ## Lines are only added -/

/-- The second machine has written what the first has, and perhaps more. -/
structure Appends (m m' : Machine) : Prop where
  output : m.output.toList <+: m'.output.toList
  capacity : m'.capacity = m.capacity

namespace Appends

variable {m m' m'' : Machine}

theorem refl (m : Machine) : Appends m m := ⟨List.prefix_refl _, rfl⟩

theorem trans (h : Appends m m') (h' : Appends m' m'') : Appends m m'' :=
  ⟨h.output.trans h'.output, h'.capacity.trans h.capacity⟩

theorem size (h : Appends m m') : m.output.size ≤ m'.output.size := by
  simpa only [Array.length_toList] using h.output.length_le

end Appends

/-- Whatever the computation starts on, lines are only added. -/
def Appending {α : Type} (x : Exec α) : Prop :=
  ∀ ⦃m m' : Machine⦄, (x m).machine? = some m' → Appends m m'

section
variable {α β : Type} {x : Exec α} {f : α → Exec β}

theorem Quiet.appending (hx : Quiet x) : Appending x := by
  intro m m' h
  obtain ⟨houtput, hcapacity⟩ := hx.keeps h
  exact ⟨by rw [houtput], hcapacity⟩

theorem Appending.bind (hx : Appending x) (hf : ∀ v, Appending (f v)) : Appending (x >>= f) := by
  intro m m' h
  change (Exec.bind x f m).machine? = _ at h
  unfold Exec.bind at h
  cases hr : x m with
  | ok v m₁ =>
    rw [hr] at h
    exact (hx (by rw [hr]; rfl)).trans (hf v h)
  | fault e m₁ =>
    rw [hr] at h
    exact hx (hr ▸ h)
  | exhausted =>
    rw [hr] at h
    cases h

theorem Appending.inFrame (hx : Appending x) (frame : FrameId) : Appending (inFrame frame x) := by
  intro m m' h
  unfold Exec.inFrame at h
  cases hr : x { m with current := frame } with
  | ok v m₁ =>
    simp only [hr] at h
    cases h
    have happends : Appends { m with current := frame } m₁ := hx (by rw [hr]; rfl)
    exact ⟨happends.output, happends.capacity⟩
  | fault e m₁ =>
    simp only [hr] at h
    cases h
    have happends : Appends { m with current := frame } m₁ := hx (by rw [hr]; rfl)
    exact ⟨happends.output, happends.capacity⟩
  | exhausted =>
    simp only [hr] at h
    cases h

theorem appending_writeLine (line : String) (site : Token) : Appending (writeLine line site) := by
  intro m m' h
  have pushed : Appends m { m with output := m.output.push line } := by
    refine ⟨?_, rfl⟩
    rw [Array.toList_push]
    exact List.prefix_append _ _
  unfold writeLine at h
  split at h
  · split_ifs at h
    · cases h
      exact .refl m
    · cases h
      exact pushed
  · cases h
    exact pushed

theorem Plan.run_appending {r : (t : Task) → Exec t.Answer} {p : Plan α}
    (hr : ∀ t, p.Uses t → Appending (r t)) (hp : p.Silent Quiet) : Appending (p.run r) := by
  induction p with
  | done value => exact (quiet_pure value).appending
  | operate x next ih =>
    exact hp.1.appending.bind fun v => ih v (fun t ht => hr t ⟨v, ht⟩) (hp.2 v)
  | use u next ih =>
    exact (hr u (.inl rfl)).bind fun v => ih v (fun t ht => hr t (.inr ⟨v, ht⟩)) (hp v)
  | useIn frame u next ih =>
    exact ((hr u (.inl rfl)).inFrame frame).bind fun v =>
      ih v (fun t ht => hr t (.inr ⟨v, ht⟩)) (hp v)
  | log => exact hp.elim

end

/-- **Lines are only added.** -/
theorem Task.run_appends (σ : Scoping) (n : Nat) (t : Task) : Appending (t.run σ n) := by
  induction n, t using Task.induction σ with
  | h n t ih =>
    rw [Task.run_eq]
    cases hgrant : t.grant n with
    | none =>
      intro m m' h
      cases h
    | some n' =>
      rcases Task.silent_or σ t with hsilent | ⟨args, site, rfl⟩
      · exact Plan.run_appending (fun t' ht' => ih n' t' hgrant ht') hsilent
      · intro m m' h
        exact (appending_writeLine (lineOf m args) site).bind
          (fun _ => (quiet_pure Value.null).appending) h

theorem Plan.Starts.appends {α : Type} {σ : Scoping} {n : Nat} {p : Plan α} {m m' : Machine}
    {t : Task} (hp : p.Silent Quiet) (h : p.Starts (Task.run σ n) m t m') : Appends m m' := by
  induction p generalizing m with
  | done _ | log => exact h.elim
  | operate x next ih =>
    obtain ⟨v, m₁, hx, h⟩ := h
    exact (hp.1.appending (by rw [hx]; rfl)).trans (ih v (hp.2 v) h)
  | use u next ih =>
    rcases h with ⟨rfl, rfl⟩ | ⟨v, m₁, hv, h⟩
    · exact .refl _
    · exact (Task.run_appends σ n u (by rw [hv]; rfl)).trans (ih v (hp v) h)
  | useIn frame u next ih =>
    rcases h with ⟨rfl, rfl⟩ | ⟨v, m₁, hv, h⟩
    · exact ⟨List.prefix_refl _, rfl⟩
    · exact ((Task.run_appends σ n u).inFrame frame (by rw [hv]; rfl)).trans (ih v (hp v) h)

/-- What starts another computation does not write itself. -/
theorem Task.silent_of_starts {σ : Scoping} {t t' : Task} {r : (t : Task) → Exec t.Answer}
    {m m' : Machine} (h : (t.plan σ).Starts r m t' m') : (t.plan σ).Silent Quiet := by
  rcases Task.silent_or σ t with hsilent | ⟨args, site, rfl⟩
  · exact hsilent
  · exact h.elim

theorem Starts.appends {σ : Scoping} {a b : Moment} (h : Starts σ a b) :
    Appends a.machine b.machine := by
  obtain ⟨-, hstarts⟩ := h.plan
  exact hstarts.appends (Task.silent_of_starts hstarts)

theorem Reaches.appends {σ : Scoping} {a b : Moment} (h : Reaches σ a b) :
    Appends a.machine b.machine := by
  induction h with
  | refl => exact .refl _
  | tail _ hstep ih => exact ih.trans hstep.appends

end Run

end Scriptlet
