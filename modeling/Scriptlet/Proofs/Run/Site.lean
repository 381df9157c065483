import Scriptlet.Proofs.Run.Plan
import Scriptlet.Proofs.Scope.Site

/-!
# Where faults are reported

A computation faults by an operation of its own or through one that it has started, so the fault that
ends a run is one of some operation at some moment of it (`Task.run_faults`). Operations fault at
tokens of the code they belong to: at an operator, a name, a keyword or the closing parenthesis of a
call, which calls hand on to the built-in functions. There is one exception: `super` looks its receiver
up under a token that it makes up itself, `Exec.thisToken`.

Results:
* `Task.run_faults`: what holds of the faults of all operations that are reached holds of the fault
  that a run ends with.
* `Task.plan_faults`: **operations fault at tokens of their code**, but for the receiver of `super`.
-/

namespace Scriptlet.Run

open Exec

/-! ## Faults of operations -/

/-- All faults that the operation may end with satisfy `S`. -/
def Faults (S : Fault → Prop) {α : Type} (x : Exec α) : Prop := ∀ m f m', x m = .fault f m' → S f

section
variable {S : Fault → Prop} {α β : Type} {x : Exec α} {f : α → Exec β}

/-- An operation that always succeeds has no faults. -/
theorem faults_of_ok (h : ∀ m, ∃ v m', x m = .ok v m') : Faults S x := by
  intro m f m' hf
  obtain ⟨v, m₁, hok⟩ := h m
  rw [hok] at hf
  cases hf

theorem faults_pure (v : α) : Faults S (pure v : Exec α) := faults_of_ok fun _ => ⟨_, _, rfl⟩

theorem Faults.bind (hx : Faults S x) (hf : ∀ v, Faults S (f v)) : Faults S (x >>= f) := by
  intro m e m' h
  change Exec.bind x f m = _ at h
  unfold Exec.bind at h
  cases hr : x m with
  | ok v m₁ =>
    rw [hr] at h
    exact hf v m₁ e m' h
  | fault e₁ m₁ =>
    rw [hr] at h
    cases h
    exact hx m e m' hr
  | exhausted =>
    rw [hr] at h
    cases h

theorem Faults.map {g : α → β} (hx : Faults S x) : Faults S (g <$> x) :=
  hx.bind fun v => faults_pure (g v)

theorem faults_raise {site : Token} {cause : Cause} (h : S ⟨site, cause⟩) :
    Faults S (raise site cause : Exec α) := by
  intro m f m' hf
  cases hf
  exact h

theorem faults_ofOperator {r : Except Fault α} (h : ∀ f, r = .error f → S f) :
    Faults S (ofOperator r) := by
  intro m f m' hf
  cases r with
  | ok v => cases hf
  | error e =>
    cases hf
    exact h f rfl

theorem faults_ofOption {found : Machine → Option α} {e : Fault} (h : S e) :
    Faults S fun m => ofOption (found m) e m := by
  intro m f m' hf
  dsimp only at hf
  cases hfound : found m with
  | some v =>
    rw [hfound] at hf
    cases hf
  | none =>
    rw [hfound] at hf
    cases hf
    exact h

theorem faults_assignIn {frame : Machine → Option FrameId} {name : Token} {v : Value}
    (h : S (.undefinedVariable name)) : Faults S fun m => assignIn (frame m) name v m := by
  intro m f m' hf
  dsimp only at hf
  cases hframe : frame m with
  | some g =>
    rw [hframe] at hf
    cases hf
  | none =>
    rw [hframe] at hf
    cases hf
    exact h

theorem faults_newFunction (decl : FunctionDecl) (frame : FrameId) :
    Faults S (newFunction decl frame) := faults_of_ok fun _ => ⟨_, _, rfl⟩

theorem faults_newMethods (frame : FrameId) (decls : List FunctionDecl) (made : List Function) :
    Faults S (newMethods frame decls made) := by
  induction decls generalizing made with
  | nil => exact faults_pure made
  | cons decl decls ih => exact (faults_newFunction decl frame).bind fun f => ih (f :: made)

theorem faults_newFrame (bs : Bindings) (frame : FrameId) : Faults S (newFrame bs frame) :=
  faults_of_ok fun _ => ⟨_, _, rfl⟩

theorem faults_methodFrame (parent : Option Class) (frame : FrameId) :
    Faults S (methodFrame parent frame) := by
  cases parent with
  | none => exact faults_pure frame
  | some c => exact faults_newFrame _ _

theorem faults_bindMethod (method : Function) (i : InstanceId) : Faults S (bindMethod method i) :=
  (faults_newFrame _ _).bind fun _ => faults_newFunction _ _

theorem faults_define (name : String) (v : Value) : Faults S (define name v) :=
  faults_of_ok fun _ => ⟨_, _, rfl⟩

theorem faults_currentFrame : Faults S currentFrame := faults_of_ok fun _ => ⟨_, _, rfl⟩

theorem faults_freshId : Faults S freshId := faults_of_ok fun _ => ⟨_, _, rfl⟩

theorem faults_newInstance (c : Class) : Faults S (newInstance c) := faults_of_ok fun _ => ⟨_, _, rfl⟩

theorem faults_setField (i : InstanceId) (name : String) (v : Value) :
    Faults S (setField i name v) := faults_of_ok fun _ => ⟨_, _, rfl⟩

theorem faults_readRef {σ : Scoping} {ref : RefId} {name : Token} (h : S (.undefinedVariable name)) :
    Faults S (readRef σ ref name) := faults_ofOption h

theorem faults_writeRef {σ : Scoping} {ref : RefId} {name : Token} {v : Value}
    (h : S (.undefinedVariable name)) : Faults S (writeRef σ ref name v) := by
  unfold writeRef assignFrom
  cases σ with
  | byName => exact faults_assignIn h
  | byDistance distances =>
    dsimp only
    cases distances[ref]? with
    | none => exact faults_assignIn h
    | some d => exact faults_assignIn h

end

/-! ## Tokens of faults -/

/-- The fault is reported at a token that satisfies `T`, or the receiver of a `super` is missing. -/
def Traced (T : Token → Prop) (f : Fault) : Prop := T f.site ∨ f.cause = .undefinedVariable "this"

section
variable {T : Token → Prop} {σ : Scoping} {ref : RefId} {name keyword method op : Token}

theorem site_unary {v : Value} {f : Fault} (h : v.unary op = .error f) : f.site = op := by
  unfold Value.unary at h
  split at h
  · split at h
    · cases h
    · cases h
      rfl
  · cases h
  · cases h
    rfl

theorem site_arithmetic {l r : Value} {g : Number → Number → Value} {f : Fault}
    (h : Value.arithmetic op l r g = .error f) : f.site = op := by
  unfold Value.arithmetic at h
  split at h
  · cases h
  · cases h
    rfl

theorem site_binary {l r : Value} {f : Fault} (h : Value.binary op l r = .error f) :
    f.site = op := by
  unfold Value.binary at h
  split at h
  · unfold Value.plus at h
    split at h
    · cases h
    · cases h
    · cases h
    · cases h
    · cases h
      rfl
  · exact site_arithmetic h
  · exact site_arithmetic h
  · exact site_arithmetic h
  · exact site_arithmetic h
  · cases h
  · cases h
  · cases h
  · cases h
  · cases h
  · cases h
    rfl

theorem faults_instanceProperty (h : T name) (i : InstanceId) :
    Faults (Traced T) (instanceProperty i name) := by
  intro m f m' hf
  unfold instanceProperty at hf
  split at hf
  · cases hf
  · split at hf
    · next found _ => exact (faults_bindMethod found i).map m f m' hf
    · cases hf
      exact .inl h

theorem faults_property (h : T name) (v : Value) : Faults (Traced T) (property v name) := by
  unfold property
  cases v with
  | object i => exact faults_instanceProperty h i
  | library l => exact faults_ofOption (.inl h)
  | _ => exact faults_raise (.inl h)

theorem faults_readSuper (h : T keyword) : Faults (Traced T) (readSuper σ ref keyword) := by
  unfold readSuper
  cases σ with
  | byName => exact faults_ofOption (.inl h)
  | byDistance distances =>
    dsimp only
    cases distances[ref]? with
    | none => exact faults_raise (.inl h)
    | some d => exact faults_ofOption (.inl h)

/-- The token of the receiver is made up, and its fault is known by its cause. -/
theorem faults_readReceiver (h : T keyword) : Faults (Traced T) (readReceiver σ ref keyword) := by
  unfold readReceiver
  cases σ with
  | byName => exact faults_ofOption (.inr rfl)
  | byDistance distances =>
    dsimp only
    cases distances[ref]? with
    | none => exact faults_raise (.inl h)
    | some d => exact faults_ofOption (.inr rfl)

theorem faults_superMethod (hkeyword : T keyword) (hmethod : T method) :
    Faults (Traced T) (superMethod σ ref keyword method) := by
  refine (faults_readSuper hkeyword).bind fun v => ?_
  cases v with
  | cls parent =>
    refine (faults_readReceiver hkeyword).bind fun w => ?_
    cases w with
    | object i =>
      dsimp only
      cases parent.findMethod method.lexeme with
      | none => exact faults_raise (.inl hmethod)
      | some found => exact (faults_bindMethod found i).map
    | _ => exact faults_raise (.inl hkeyword)
  | _ => exact faults_raise (.inl hkeyword)

theorem faults_readParent {superclass : Option Superclass}
    (h : ∀ parent ∈ superclass, T parent.name) : Faults (Traced T) (readParent σ superclass) := by
  cases superclass with
  | none => exact faults_pure none
  | some parent =>
    have hparent : T parent.name := h parent rfl
    refine (faults_readRef (.inl hparent)).bind fun v => ?_
    cases v with
    | cls c => exact faults_pure (some c)
    | _ => exact faults_raise (.inl hparent)

theorem faults_declareClass {decl : ClassDecl} (h : decl.Over T) :
    Faults (Traced T) (declareClass σ decl) := by
  obtain ⟨name, superclass, interface, methods⟩ := decl
  rw [declareClass_eq]
  refine Faults.bind ?_ fun made => faults_assignIn (.inl h.1)
  exact (faults_readParent h.2.1).bind fun parent => (faults_define _ _).bind fun _ =>
    faults_currentFrame.bind fun frame => (faults_methodFrame parent frame).bind fun inner =>
      (faults_newMethods inner _ _).bind fun _ => faults_freshId.bind fun _ => faults_pure _

end

/-! ## Faults of plans -/

/-- All faults of operations along the plan satisfy `S`. -/
def Plan.Faults (S : Fault → Prop) {α : Type} : Plan α → Prop
  | .done _ => True
  | .operate x next => Run.Faults S x ∧ ∀ v, (next v).Faults S
  | .use _ next => ∀ v, (next v).Faults S
  | .useIn _ _ next => ∀ v, (next v).Faults S
  | .log _ site _ => ∀ cause, S ⟨site, cause⟩

section
variable {S : Fault → Prop} {α β : Type} {r : (t : Task) → Exec t.Answer} {p : Plan α}
  {m m' : Machine} {f : Fault}

/-- A fault of a sequence is one of its first part or of the rest. -/
theorem bind_eq_fault {x : Exec α} {g : α → Exec β} (h : (x >>= g) m = .fault f m') :
    (∃ m₁, x m = .fault f m₁) ∨ ∃ v m₁, x m = .ok v m₁ ∧ g v m₁ = .fault f m' := by
  change Exec.bind x g m = _ at h
  unfold Exec.bind at h
  cases hr : x m with
  | ok v m₁ =>
    rw [hr] at h
    exact .inr ⟨v, m₁, rfl, h⟩
  | fault e m₁ =>
    rw [hr] at h
    cases h
    exact .inl ⟨m', rfl⟩
  | exhausted =>
    rw [hr] at h
    cases h

theorem inFrame_eq_fault {x : Exec α} {frame : FrameId} (h : inFrame frame x m = .fault f m') :
    ∃ m₁, x { m with current := frame } = .fault f m₁ := by
  unfold inFrame at h
  dsimp only at h
  split at h
  · cases h
  · next hx =>
    cases h
    exact ⟨_, hx⟩
  · cases h

theorem Plan.Faults.mono {S' : Fault → Prop} (hS : ∀ f, S f → S' f) (hp : p.Faults S) :
    p.Faults S' := by
  induction p with
  | done _ => trivial
  | operate x next ih => exact ⟨fun m f m' h => hS f (hp.1 m f m' h), fun v => ih v (hp.2 v)⟩
  | use t next ih | useIn frame t next ih => exact fun v => ih v (hp v)
  | log args site value => exact fun cause => hS _ (hp cause)

/-- **A plan ends with a fault of one of its operations or of a computation that it has started.** -/
theorem Plan.run_faults (hp : p.Faults S)
    (hstarts : ∀ t m₁ m₂, p.Starts r m t m₁ → r t m₁ = .fault f m₂ → S f)
    (h : p.run r m = .fault f m') : S f := by
  induction p generalizing m with
  | done _ => cases h
  | operate x next ih =>
    rcases bind_eq_fault h with ⟨m₁, hx⟩ | ⟨v, m₁, hx, h⟩
    · exact hp.1 m f m₁ hx
    · exact ih v (hp.2 v) (fun t m₂ m₃ ht => hstarts t m₂ m₃ ⟨v, m₁, hx, ht⟩) h
  | use t next ih =>
    rcases bind_eq_fault h with ⟨m₁, ht⟩ | ⟨v, m₁, ht, h⟩
    · exact hstarts t m m₁ (.inl ⟨rfl, rfl⟩) ht
    · exact ih v (hp v) (fun u m₂ m₃ hu => hstarts u m₂ m₃ (.inr ⟨v, m₁, ht, hu⟩)) h
  | useIn frame t next ih =>
    rcases bind_eq_fault h with ⟨m₁, ht⟩ | ⟨v, m₁, ht, h⟩
    · obtain ⟨m₂, ht⟩ := inFrame_eq_fault ht
      exact hstarts t _ m₂ (.inl ⟨rfl, rfl⟩) ht
    · exact ih v (hp v) (fun u m₂ m₃ hu => hstarts u m₂ m₃ (.inr ⟨v, m₁, ht, hu⟩)) h
  | log args site value =>
    rcases bind_eq_fault h with ⟨m₁, hx⟩ | ⟨v, m₁, -, h⟩
    · unfold writeLine at hx
      split at hx
      · split_ifs at hx
        cases hx
        exact hp _
      · cases hx
    · cases h

/-- **What holds of the faults of all operations that are reached holds of the fault that a run ends
with**, by induction on what is started. -/
theorem Task.run_faults {σ : Scoping} {n : Nat} {t : Task}
    (hp : ∀ b, Reaches σ ⟨n, t, m⟩ b → (b.task.plan σ).Faults S)
    (h : t.run σ n m = .fault f m') : S f := by
  induction n, t using Task.induction σ generalizing m m' with
  | h n t ih =>
    rw [Task.run_eq] at h
    cases hgrant : t.grant n with
    | none =>
      rw [hgrant] at h
      cases h
    | some n' =>
      rw [hgrant] at h
      refine Plan.run_faults (hp ⟨n, t, m⟩ .refl) (fun u m₁ m₂ hstarts hfault => ?_) h
      refine ih n' u hgrant hstarts.uses (fun b hb => hp b ?_) hfault
      exact .head (starts_iff.mpr ⟨hgrant, hstarts⟩) hb

end

/-! ## Computations -/

/-- The tokens at which operations of the computation may fault satisfy `T`. -/
def Task.Over (T : Token → Prop) : Task → Prop
  | .exec st => st.Over T
  | .eval e => e.Over T
  | .write _ name _ _ => T name
  | .apply _ _ site => T site
  | .program _ | .execAll _ | .loop .. | .evalAll _ | .call .. => True

section
variable {T : Token → Prop} {σ : Scoping}

theorem exec_faults {st : Stmt} (h : st.Over T) :
    ((Task.exec st).plan σ).Faults (Traced T) := by
  cases st with
  | expr e => exact fun _ => trivial
  | declare name init =>
    cases init with
    | none => exact ⟨faults_define _ _, fun _ => trivial⟩
    | some e => exact fun _ => ⟨faults_define _ _, fun _ => trivial⟩
  | block body => exact ⟨faults_currentFrame, fun _ => ⟨faults_newFrame _ _, fun _ _ => trivial⟩⟩
  | branch c t o =>
    intro x
    dsimp only
    split_ifs
    · exact fun _ => trivial
    · cases o with
      | none => trivial
      | some e => exact fun _ => trivial
  | loop c b => exact fun _ => trivial
  | function decl =>
    exact ⟨faults_currentFrame, fun _ => ⟨faults_newFunction _ _, fun _ =>
      ⟨faults_define _ _, fun _ => trivial⟩⟩⟩
  | ret keyword value =>
    cases value with
    | none => trivial
    | some e => exact fun _ => trivial
  | classDecl decl => exact ⟨faults_declareClass h, fun _ => trivial⟩

theorem eval_faults {e : Expr} (h : e.Over T) : ((Task.eval e).plan σ).Faults (Traced T) := by
  cases e with
  | literal value => trivial
  | group e => exact fun _ => trivial
  | unary op e =>
    refine fun x => ⟨faults_ofOperator fun f hf => .inl ?_, fun _ => trivial⟩
    rw [site_unary hf]
    exact h.1
  | binary l op r =>
    refine fun x y => ⟨faults_ofOperator fun f hf => .inl ?_, fun _ => trivial⟩
    rw [site_binary hf]
    exact h.2.1
  | logical l op r =>
    intro x
    dsimp only
    split_ifs
    · trivial
    · exact fun _ => trivial
  | var ref name => exact ⟨faults_readRef (.inl h), fun _ => trivial⟩
  | assign ref name e => exact fun _ _ => trivial
  | call e paren args =>
    intro f vs
    dsimp only
    cases f.arity? with
    | none => exact ⟨faults_raise (.inl h.2.1), fun _ => trivial⟩
    | some arity =>
      dsimp only
      split_ifs
      · exact fun _ => trivial
      · exact ⟨faults_raise (.inl h.2.1), fun _ => trivial⟩
  | get e name => exact fun x => ⟨faults_property h.2 x, fun _ => trivial⟩
  | set o name e =>
    intro x
    cases x with
    | object i => exact fun v => ⟨faults_setField _ _ _, fun _ => trivial⟩
    | _ => exact ⟨faults_raise (.inl h.2.1), fun _ => trivial⟩
  | this ref keyword => exact ⟨faults_readRef (.inl h), fun _ => trivial⟩
  | super ref keyword method => exact ⟨faults_superMethod h.1 h.2, fun _ => trivial⟩

theorem apply_faults {callee : Value} {args : List Value} {site : Token} (h : T site) :
    ((Task.apply callee args site).plan σ).Faults (Traced T) := by
  cases callee with
  | function f => exact fun _ => trivial
  | native f =>
    cases f with
    | log => exact fun _ => .inl h
    | now => exact ⟨faults_of_ok fun _ => ⟨_, _, rfl⟩, fun _ => trivial⟩
  | cls c =>
    refine ⟨faults_newInstance c, fun i => ?_⟩
    dsimp only
    cases c.findMethod constructorName with
    | none => trivial
    | some method => exact ⟨faults_bindMethod method i, fun _ _ => trivial⟩
  | _ => exact ⟨faults_raise (.inl h), fun _ => trivial⟩

/-- Statements go on or return, and neither faults. -/
theorem flow_faults {S : Fault → Prop} {rest : Plan Flow} (h : rest.Faults S) (flow : Flow) :
    (Flow.plan rest flow).Faults S := by
  cases flow with
  | normal => exact h
  | returned value => trivial

/-- **Operations fault at tokens of their code**, but for the receiver of `super`. -/
theorem Task.plan_faults {t : Task} (h : t.Over T) : (t.plan σ).Faults (Traced T) := by
  cases t with
  | program ss =>
    cases ss with
    | nil => trivial
    | cons st ss => exact fun _ _ => trivial
  | exec st => exact exec_faults h
  | execAll ss =>
    cases ss with
    | nil => trivial
    | cons st ss => exact flow_faults fun _ => trivial
  | loop c b =>
    intro x
    dsimp only
    split_ifs
    · exact flow_faults fun _ => trivial
    · trivial
  | eval e => exact eval_faults h
  | evalAll es =>
    cases es with
    | nil => trivial
    | cons e es => exact fun _ _ => trivial
  | apply callee args site => exact apply_faults h
  | call f args =>
    refine ⟨faults_newFrame _ _, fun _ flow => ?_⟩
    cases flow <;> trivial
  | write ref name e value => exact ⟨faults_writeRef (.inl h), fun _ => trivial⟩

end

end Scriptlet.Run
