import Scriptlet.Proofs.Run.Ownership

/-!
# Runs are confined to what they own

Whatever a computation does, it does to what it owns: it looks names up along frames that are owned,
calls functions that are owned in new frames inside those they were made in, and binds what it has
computed. So the invariant `Confines` holds when it ends, however it ends, and its value is owned. The
program, the distances and the store may be anything; nothing is asked of them.

`Confined` says of a result that the computation has kept the invariant, and `Confined.bind` puts
computations together, so that what one of them does is proved once. Here are the operations of the
machine, one lemma for each.

Results:
* `Confined.bind`, `Confined.inFrame`: composition.
* `Inside.confined_readRef`, `Inside.confined_writeRef`: references, whatever the distances.
* `Inside.confined_property`, `Inside.confined_superMethod`: methods and properties.
* `Inside.confined_declareClass`: class declarations.
-/

namespace Scriptlet

def Machine.extent (m : Machine) : Run.Extent := m.store.extent m.nextId

namespace Run

open Exec

variable {O : Origin} {σ : Scoping} {m m' m'' : Machine}

/-- **A machine is inside what is owned**: the invariant holds, and the current frame is owned. -/
structure Inside (O : Origin) (m : Machine) : Prop where
  confines : Confines O m.store m.nextId
  current : Owned O m.extent (.frame m.current)

/-- A run has come from one machine to another inside what is owned, and is back in its frame. -/
structure Proceeds (O : Origin) (m m' : Machine) : Prop where
  confines : Confines O m'.store m'.nextId
  extent : m.extent ≤ m'.extent
  current : m'.current = m.current

theorem Proceeds.trans (h : Proceeds O m m') (h' : Proceeds O m' m'') : Proceeds O m m'' :=
  ⟨h'.confines, Extent.le_trans h.extent h'.extent, h'.current.trans h.current⟩

theorem Inside.refl (h : Inside O m) : Proceeds O m m := ⟨h.confines, Extent.le_refl _, rfl⟩

theorem Inside.after (h : Inside O m) (hp : Proceeds O m m') : Inside O m' :=
  ⟨hp.confines, hp.current ▸ h.current.mono hp.extent⟩

/-- Another frame that is owned becomes the current one. -/
theorem Proceeds.enter (h : Proceeds O m m') {f : FrameId} (hf : Owned O m'.extent (.frame f)) :
    Inside O { m' with current := f } := ⟨h.confines, hf⟩

theorem Inside.global (_ : Inside O m) : Owned O m.extent (.frame Store.global) :=
  .before ⟨_, O.global, .refl⟩

/-! ## Results -/

/-- **The computation has stayed inside what is owned**, and `Q` holds of its value. -/
def Confined {α : Type} (O : Origin) (m : Machine) (r : Result α) (Q : Extent → α → Prop) : Prop :=
  match r with
  | .ok a m' => Proceeds O m m' ∧ Q m'.extent a
  | .fault _ m' => Proceeds O m m'
  | .exhausted => True

/-- The value is owned. -/
def OwnsValue (O : Origin) (n : Extent) (v : Value) : Prop := Owned O n (.value v)

/-- The values are owned. -/
def OwnsAll (O : Origin) (n : Extent) (vs : List Value) : Prop := ∀ v ∈ vs, OwnsValue O n v

/-- A value that is returned is owned. -/
def OwnsFlow (O : Origin) (n : Extent) : Flow → Prop
  | .normal => True
  | .returned v => OwnsValue O n v

theorem OwnsAll.mono {n n' : Extent} {vs : List Value} (h : OwnsAll O n vs) (hn : n ≤ n') :
    OwnsAll O n' vs :=
  fun v hv => (h v hv).mono hn

namespace Confined

variable {α β : Type} {Q : Extent → α → Prop} {S : Extent → β → Prop}

theorem pure {a : α} (h : Inside O m) (hq : Q m.extent a) :
    Confined O m ((Pure.pure a : Exec α) m) Q := ⟨h.refl, hq⟩

/-- Something has happened before. -/
theorem after {r : Result α} (hp : Proceeds O m m') (h : Confined O m' r Q) : Confined O m r Q := by
  cases r with
  | ok a m'' => exact ⟨hp.trans h.1, h.2⟩
  | fault f m'' => exact hp.trans h
  | exhausted => trivial

/-- **One computation after the other.** -/
theorem bind {x : Exec α} {f : α → Exec β} (hx : Confined O m (x m) Q)
    (hf : ∀ a m', Proceeds O m m' → Q m'.extent a → Confined O m' (f a m') S) :
    Confined O m ((x >>= f) m) S := by
  show Confined O m (Exec.bind x f m) S
  unfold Exec.bind
  cases hr : x m with
  | ok a m' =>
    rw [hr] at hx
    exact (hf a m' hx.1 hx.2).after hx.1
  | fault f m' =>
    rw [hr] at hx
    exact hx
  | exhausted => trivial

/-- The value is only wrapped up. -/
theorem map {x : Exec α} {f : α → β} (h : Inside O m) (hx : Confined O m (x m) Q)
    (hf : ∀ n a, Q n a → S n (f a)) : Confined O m ((do return f (← x)) m) S :=
  hx.bind fun a _ hp hq => .pure (h.after hp) (hf _ a hq)

/-- **A computation in another frame.** -/
theorem inFrame {x : Exec α} {f : FrameId}
    (h : Confined O { m with current := f } (x { m with current := f }) Q) :
    Confined O m (Exec.inFrame f x m) Q := by
  unfold Exec.inFrame
  cases hr : x { m with current := f } with
  | ok a m' =>
    rw [hr] at h
    exact ⟨⟨h.1.confines, h.1.extent, rfl⟩, h.2⟩
  | fault f m' =>
    rw [hr] at h
    exact ⟨h.confines, h.extent, rfl⟩
  | exhausted => trivial

theorem ofOption {o : Option α} {f : Fault} (h : Inside O m)
    (ho : ∀ a, o = some a → Q m.extent a) : Confined O m (Exec.ofOption o f m) Q := by
  cases o with
  | some a => exact ⟨h.refl, ho a rfl⟩
  | none => exact h.refl

end Confined

/-! ## Operators -/

theorem isPlain_unary {op : Token} {x v : Value} (h : x.unary op = .ok v) : v.IsPlain := by
  unfold Value.unary at h
  split at h
  · split at h <;> cases h
    trivial
  · cases h
    trivial
  · cases h

theorem isPlain_arithmetic {op : Token} {x y v : Value} {f : Number → Number → Value}
    (hf : ∀ a b, (f a b).IsPlain) (h : Value.arithmetic op x y f = .ok v) : v.IsPlain := by
  unfold Value.arithmetic at h
  split at h <;> cases h
  exact hf _ _

theorem isPlain_plus {op : Token} {x y v : Value} (h : Value.plus op x y = .ok v) : v.IsPlain := by
  unfold Value.plus at h
  split at h <;> cases h <;> trivial

theorem isPlain_binary {op : Token} {x y v : Value} (h : Value.binary op x y = .ok v) :
    v.IsPlain := by
  unfold Value.binary at h
  split at h
  · exact isPlain_plus h
  iterate 4 · refine isPlain_arithmetic ?_ h; exact fun _ _ => trivial
  iterate 5 · cases h; trivial
  · cases h

/-! ## What is bound in a new frame -/

theorem owned_none {n : Extent} (x : String) (v : Value) (hv : Bindings.get? [] x = some v) :
    OwnsValue O n v := nomatch hv

theorem owned_single {name x : String} {v w : Value} {n : Extent} (hv : OwnsValue O n v)
    (hw : Bindings.get? [(name, v)] x = some w) : OwnsValue O n w := by
  rw [Bindings.get?_cons] at hw
  split_ifs at hw
  · cases hw
    exact hv
  · cases hw

theorem owned_arguments {n : Extent} {params : List Token} {args : List Value}
    (hargs : OwnsAll O n args) (x : String) (v : Value)
    (hv : (Bindings.ofArguments params args).get? x = some v) : OwnsValue O n v :=
  hargs v ((Bindings.get?_ofArguments params args x).1 v hv).2

namespace Inside

theorem confined_ofOperator {x : Except Fault Value} (h : Inside O m)
    (hx : ∀ v, x = .ok v → v.IsPlain) : Confined O m (ofOperator x m) (OwnsValue O) := by
  cases x with
  | ok v => exact ⟨h.refl, .plain (hx v rfl)⟩
  | error f => exact h.refl

/-! ## Frames and references -/

theorem confined_newFrame {bs : Bindings} {e : FrameId} (h : Inside O m)
    (he : Owned O m.extent (.frame e))
    (hbs : ∀ x v, bs.get? x = some v → OwnsValue O m.extent v) :
    Confined O m (newFrame bs e m) (fun n f => Owned O n (.frame f)) := by
  refine ⟨⟨h.confines.newFrame he hbs, ?_, rfl⟩, .frame h.confines.grows.frames ?_⟩
  · exact (Store.grows_newFrame _ _ _).extent_le (Nat.le_refl _)
  · show m.store.frames.size < (m.store.newFrame bs (some e)).2.frames.size
    rw [Store.size_newFrame]
    exact Nat.lt_succ_self _

/-- A name is bound in a frame that is owned. -/
theorem confined_assignIn {frame : Option FrameId} {name : Token} {v : Value} (h : Inside O m)
    (hframe : ∀ f, frame = some f → Owned O m.extent (.frame f)) (hv : OwnsValue O m.extent v) :
    Confined O m (assignIn frame name v m) (fun _ _ => True) := by
  cases frame with
  | none => exact h.refl
  | some f =>
    refine ⟨⟨h.confines.define name.lexeme (hframe f rfl) hv, ?_, rfl⟩, trivial⟩
    exact (Store.grows_define _ _ _ _).extent_le (Nat.le_refl _)

theorem confined_define {v : Value} (name : String) (h : Inside O m)
    (hv : OwnsValue O m.extent v) : Confined O m (define name v m) (fun _ _ => True) := by
  refine ⟨⟨h.confines.define name h.current hv, ?_, rfl⟩, trivial⟩
  exact (Store.grows_define _ _ _ _).extent_le (Nat.le_refl _)

theorem owned_ownerWithin {x : String} {k : Nat} {f g : FrameId} (h : Inside O m)
    (hf : Owned O m.extent (.frame f)) (hg : m.store.ownerWithin x k f = some g) :
    Owned O m.extent (.frame g) := by
  induction k generalizing f with
  | zero =>
    unfold Store.ownerWithin at hg
    split_ifs at hg
    cases hg
    exact hf
  | succ k ih =>
    unfold Store.ownerWithin at hg
    split_ifs at hg
    · cases hg
      exact hf
    · cases he : m.store.enclosing? f with
      | none => rw [he] at hg; cases hg
      | some outer =>
        rw [he] at hg
        exact ih (h.confines.enclosing hf he) hg

theorem owned_ancestor {d : Nat} {f g : FrameId} (h : Inside O m)
    (hf : Owned O m.extent (.frame f)) (hg : m.store.ancestor f d = some g) :
    Owned O m.extent (.frame g) := by
  induction d generalizing f with
  | zero =>
    cases hg
    exact hf
  | succ d ih =>
    cases he : m.store.enclosing? f with
    | none => simp [Store.ancestor, he] at hg
    | some outer =>
      rw [Store.ancestor_succ he] at hg
      exact ih (h.confines.enclosing hf he) hg

theorem owned_lookup {f : FrameId} {x : String} {v : Value} (h : Inside O m)
    (hf : Owned O m.extent (.frame f)) (hv : m.store.lookup f x = some v) :
    OwnsValue O m.extent v := by
  obtain ⟨g, hg, hget⟩ := Option.bind_eq_some_iff.mp hv
  exact h.confines.bound (h.owned_ownerWithin hf hg) hget

theorem owned_getAt {f : FrameId} {d : Nat} {x : String} {v : Value} (h : Inside O m)
    (hf : Owned O m.extent (.frame f)) (hv : m.store.getAt f d x = some v) :
    OwnsValue O m.extent v := by
  obtain ⟨g, hg, hget⟩ := Option.bind_eq_some_iff.mp hv
  exact h.confines.bound (h.owned_ancestor hf hg) hget

theorem confined_assignFrom {f : FrameId} {name : Token} {v : Value} (h : Inside O m)
    (hf : Owned O m.extent (.frame f)) (hv : OwnsValue O m.extent v) :
    Confined O m (assignFrom f name v m) (fun _ _ => True) :=
  h.confined_assignIn (fun _ hg => h.owned_ownerWithin hf hg) hv

theorem confined_readRef (ref : RefId) (name : Token) (h : Inside O m) :
    Confined O m (readRef σ ref name m) (OwnsValue O) := by
  refine .ofOption h fun v hv => ?_
  cases σ with
  | byName => exact h.owned_lookup h.current hv
  | byDistance distances =>
    dsimp only at hv
    split at hv
    · exact h.owned_getAt h.current hv
    · exact h.owned_lookup h.global hv

theorem confined_writeRef (ref : RefId) (name : Token) {v : Value} (h : Inside O m)
    (hv : OwnsValue O m.extent v) :
    Confined O m (writeRef σ ref name v m) (fun _ _ => True) := by
  unfold writeRef
  cases σ with
  | byName => exact h.confined_assignFrom h.current hv
  | byDistance distances =>
    dsimp only
    split
    · exact h.confined_assignIn (fun _ hg => h.owned_ancestor h.current hg) hv
    · exact h.confined_assignFrom h.global hv

theorem confined_readSuper (ref : RefId) (keyword : Token) (h : Inside O m) :
    Confined O m (readSuper σ ref keyword m) (OwnsValue O) := by
  unfold readSuper
  cases σ with
  | byName => exact .ofOption h fun v hv => h.owned_lookup h.current hv
  | byDistance distances =>
    dsimp only
    split
    · exact .ofOption h fun v hv => h.owned_getAt h.current hv
    · exact h.refl

theorem confined_readReceiver (ref : RefId) (keyword : Token) (h : Inside O m) :
    Confined O m (readReceiver σ ref keyword m) (OwnsValue O) := by
  unfold readReceiver
  cases σ with
  | byName => exact .ofOption h fun v hv => h.owned_lookup h.current hv
  | byDistance distances =>
    dsimp only
    split
    · exact .ofOption h fun v hv => h.owned_getAt h.current hv
    · exact h.refl

/-! ## Functions and instances -/

theorem confined_newFunction (decl : FunctionDecl) {f : FrameId} (h : Inside O m)
    (hf : Owned O m.extent (.frame f)) :
    Confined O m (newFunction decl f m) (fun n fn => OwnsValue O n (.function fn)) := by
  have hextent : m.extent ≤ m.store.extent (m.nextId + 1) :=
    (Store.Grows.refl _).extent_le (Nat.le_succ _)
  exact ⟨⟨h.confines.newId (Nat.le_succ _), hextent, rfl⟩,
    .function h.confines.ids_le (Nat.lt_succ_self _) (hf.mono hextent)⟩

theorem confined_bindMethod {method : Function} {receiver : InstanceId} (h : Inside O m)
    (hmethod : OwnsValue O m.extent (.function method))
    (hreceiver : OwnsValue O m.extent (.object receiver)) :
    Confined O m (bindMethod method receiver m) (fun n fn => OwnsValue O n (.function fn)) := by
  refine (h.confined_newFrame hmethod.closure fun _ _ => owned_single hreceiver).bind
    fun frame m₁ h₁ hframe => ?_
  exact (h.after h₁).confined_newFunction method.decl hframe

theorem confined_boundMethod {method : Function} {receiver : InstanceId} (h : Inside O m)
    (hmethod : OwnsValue O m.extent (.function method))
    (hreceiver : OwnsValue O m.extent (.object receiver)) :
    Confined O m ((Value.function <$> bindMethod method receiver) m) (OwnsValue O) :=
  .map h (h.confined_bindMethod hmethod hreceiver) fun _ _ hfn => hfn

theorem confined_newInstance {c : Class} (h : Inside O m) (hc : OwnsValue O m.extent (.cls c)) :
    Confined O m (newInstance c m) (fun n i => OwnsValue O n (.object i)) := by
  refine ⟨⟨h.confines.newInstance hc, ?_, rfl⟩, .object h.confines.grows.instances ?_⟩
  · exact (Store.grows_newInstance _ _).extent_le (Nat.le_refl _)
  · show m.store.instances.size < (m.store.newInstance c).2.instances.size
    rw [Store.size_newInstance]
    exact Nat.lt_succ_self _

theorem confined_setField {i : InstanceId} {v : Value} (name : String) (h : Inside O m)
    (hi : OwnsValue O m.extent (.object i)) (hv : OwnsValue O m.extent v) :
    Confined O m (setField i name v m) (fun _ _ => True) := by
  refine ⟨⟨h.confines.setField name hi hv, ?_, rfl⟩, trivial⟩
  exact (Store.grows_setField _ _ _ _).extent_le (Nat.le_refl _)

theorem confined_property {value : Value} (name : Token) (h : Inside O m)
    (hvalue : OwnsValue O m.extent value) :
    Confined O m (property value name m) (OwnsValue O) := by
  cases value with
  | object i =>
    unfold property instanceProperty
    dsimp only
    cases hfield : m.store.field? i name.lexeme with
    | some v => exact ⟨h.refl, h.confines.field hvalue hfield⟩
    | none =>
      dsimp only
      cases hmethod : (m.store.class? i).bind (Class.findMethod name.lexeme) with
      | none => exact h.refl
      | some fn =>
        obtain ⟨c, hc, hfn⟩ := Option.bind_eq_some_iff.mp hmethod
        exact h.confined_boundMethod ((h.confines.cls hvalue hc).findMethod hfn) hvalue
  | library l =>
    refine .ofOption h fun v hv => ?_
    obtain ⟨f, hf, rfl⟩ := Option.map_eq_some_iff.mp hv
    exact hvalue.native hf
  | _ => exact h.refl

theorem confined_superMethod (ref : RefId) (keyword method : Token) (h : Inside O m) :
    Confined O m (superMethod σ ref keyword method m) (OwnsValue O) := by
  refine (h.confined_readSuper ref keyword).bind fun x m₁ h₁ hx => ?_
  have hin₁ := h.after h₁
  cases x with
  | cls parent =>
    refine (hin₁.confined_readReceiver ref keyword).bind fun y m₂ h₂ hy => ?_
    have hin₂ := hin₁.after h₂
    cases y with
    | object receiver =>
      dsimp only
      cases hfn : parent.findMethod method.lexeme with
      | some fn => exact hin₂.confined_boundMethod ((hx.mono h₂.extent).findMethod hfn) hy
      | none => exact hin₂.refl
    | _ => exact hin₂.refl
  | _ => exact hin₁.refl

theorem confined_callNative (f : Native) (args : List Value) (site : Token) (h : Inside O m) :
    Confined O m (callNative f args site m) (OwnsValue O) := by
  have written (line : String) : Confined O m (writeLine line site m) (fun _ _ => True) := by
    unfold writeLine
    split
    · split_ifs
      · exact h.refl
      · exact ⟨⟨h.confines, Extent.le_refl _, rfl⟩, trivial⟩
    · exact ⟨⟨h.confines, Extent.le_refl _, rfl⟩, trivial⟩
  cases f with
  | log => exact .map h (written _) fun _ _ _ => .plain trivial
  | now => exact ⟨h.refl, .plain trivial⟩

/-! ## Classes -/

theorem confined_newMethods {frame : FrameId} (decls : List FunctionDecl) {made : List Function}
    (h : Inside O m) (hframe : Owned O m.extent (.frame frame))
    (hmade : ∀ fn ∈ made, OwnsValue O m.extent (.function fn)) :
    Confined O m (newMethods frame decls made m)
      (fun n fns => ∀ fn ∈ fns, OwnsValue O n (.function fn)) := by
  induction decls generalizing made m with
  | nil => exact .pure h hmade
  | cons decl decls ih =>
    refine (h.confined_newFunction decl hframe).bind fun fn m₁ h₁ hfn => ?_
    refine ih (h.after h₁) (hframe.mono h₁.extent) (List.forall_mem_cons.mpr ⟨hfn, ?_⟩)
    exact fun fn hmem => (hmade fn hmem).mono h₁.extent

theorem confined_readParent (superclass : Option Superclass) (h : Inside O m) :
    Confined O m (readParent σ superclass m)
      (fun n parent => ∀ c, parent = some c → OwnsValue O n (.cls c)) := by
  cases superclass with
  | none => exact .pure h nofun
  | some parent =>
    refine (h.confined_readRef parent.ref parent.name).bind fun x m₁ h₁ hx => ?_
    cases x with
    | cls c =>
      refine .pure (h.after h₁) ?_
      rintro _ ⟨⟩
      exact hx
    | _ => exact (h.after h₁).refl

theorem confined_methodFrame {parent : Option Class} {frame : FrameId} (h : Inside O m)
    (hframe : Owned O m.extent (.frame frame))
    (hparent : ∀ c, parent = some c → OwnsValue O m.extent (.cls c)) :
    Confined O m (methodFrame parent frame m) (fun n f => Owned O n (.frame f)) := by
  cases parent with
  | none => exact .pure h hframe
  | some c => exact h.confined_newFrame hframe fun _ _ => owned_single (hparent c rfl)

/-- The class that is made is owned, and so is the frame in which its name is bound. -/
theorem confined_makeClass (decl : ClassDecl) (h : Inside O m) :
    Confined O m (makeClass σ decl m)
      (fun n made => Owned O n (.frame made.1) ∧ OwnsValue O n (.cls made.2)) := by
  unfold makeClass
  refine (h.confined_readParent decl.superclass).bind fun parent m₁ h₁ hparent => ?_
  have hin₁ := h.after h₁
  have hnull : OwnsValue O m₁.extent .null := .plain trivial
  refine (hin₁.confined_define decl.name.lexeme hnull).bind fun _ m₂ h₂ _ => ?_
  have hin₂ := hin₁.after h₂
  rw [bind_of_ok (show currentFrame m₂ = .ok m₂.current m₂ from rfl)]
  refine (hin₂.confined_methodFrame hin₂.current fun c hc => (hparent c hc).mono h₂.extent).bind
    fun inner m₃ h₃ hinner => ?_
  have hin₃ := hin₂.after h₃
  have hnone : ∀ fn ∈ ([] : List Function), OwnsValue O m₃.extent (.function fn) := by simp
  refine (hin₃.confined_newMethods decl.methods hinner hnone).bind fun methods m₄ h₄ hmethods => ?_
  have hin₄ := hin₃.after h₄
  have hparent₄ (c : Class) (hc : parent = some c) : OwnsValue O m₄.extent (.cls c) :=
    (hparent c hc).mono (h₂.trans (h₃.trans h₄)).extent
  have hextent : m₄.extent ≤ m₄.store.extent (m₄.nextId + 1) :=
    (Store.Grows.refl _).extent_le (Nat.le_succ _)
  refine ⟨⟨hin₄.confines.newId (Nat.le_succ _), hextent, rfl⟩, ?_, ?_⟩
  · exact (hin₂.current.mono (h₃.trans h₄).extent).mono hextent
  · exact .cls hin₄.confines.ids_le (Nat.lt_succ_self _)
      (fun fn hfn => (hmethods fn hfn).mono hextent) (fun c hc => (hparent₄ c hc).mono hextent)
      fun c hc => (hparent₄ c hc).given

theorem confined_declareClass (decl : ClassDecl) (h : Inside O m) :
    Confined O m (declareClass σ decl m) (fun _ _ => True) := by
  rw [declareClass_eq]
  refine (h.confined_makeClass decl).bind fun made m₁ h₁ hmade => ?_
  exact (h.after h₁).confined_assignFrom hmade.1 hmade.2

end Inside

end Run

end Scriptlet
