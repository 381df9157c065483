import Scriptlet.Proofs.Store
import Scriptlet.Eval

/-!
# Methods and the classes they belong to

Functions and classes are values that never change, so it is enough to know how they came about. A class
was made by a declaration (`Made`), in frames in which `super` is bound to the superclass it had then; a
function with a receiver was made by binding a method of a class (`Bound`), in a frame of its own in
which `this` is bound to the receiver. Both hold for ever, since what keywords are bound to stays.

Results:
* `Class.findMethod_eq`: a method is looked for in a class and its superclasses, upwards.
* `declareClass_eq`: a class declaration makes a class and then binds its name.
* `Bound.this`, `Bound.enclosing`, `Made.super`: what is bound around a method.
-/

namespace Scriptlet

/-! ## Computations -/

instance : LawfulMonad Exec := .mk' Exec
  (fun x => by
    funext m
    show Exec.bind x _ m = _
    unfold Exec.bind
    cases x m <;> rfl)
  (fun _ _ => rfl)
  (fun x f g => by
    funext m
    show Exec.bind (Exec.bind x f) g m = Exec.bind x (fun a => Exec.bind (f a) g) m
    unfold Exec.bind
    cases x m <;> rfl)

section
variable {α β : Type} {x : Exec α} {f : α → Exec β} {m : Machine}

theorem bind_of_ok {m' : Machine} {a : α} (h : x m = .ok a m') : (x >>= f) m = f a m' := by
  show Exec.bind x f m = _
  unfold Exec.bind
  rw [h]

/-- What yields a value after another computation yields one after that one did. -/
theorem bind_eq_ok {m'' : Machine} {b : β} (h : (x >>= f) m = .ok b m'') :
    ∃ a m', x m = .ok a m' ∧ f a m' = .ok b m'' := by
  change Exec.bind x f m = _ at h
  unfold Exec.bind at h
  cases hx : x m with
  | ok a m' =>
    rw [hx] at h
    exact ⟨a, m', rfl, h⟩
  | fault f m' =>
    rw [hx] at h
    cases h
  | exhausted =>
    rw [hx] at h
    cases h

end

/-! ## Chains of classes -/

namespace Class

/-- A class and its superclasses, upwards. -/
def chain : Class → List Class
  | ⟨id, name, none, methods⟩ => [⟨id, name, none, methods⟩]
  | ⟨id, name, some parent, methods⟩ => ⟨id, name, some parent, methods⟩ :: parent.chain
termination_by structural c => c

theorem mem_chain_self (c : Class) : c ∈ c.chain := by
  obtain ⟨id, name, superclass, methods⟩ := c
  cases superclass <;> exact List.mem_cons_self

theorem mem_chain {c d : Class} (h : c ∈ d.chain) :
    c = d ∨ ∃ parent, d.superclass = some parent ∧ c ∈ parent.chain := by
  obtain ⟨id, name, superclass, methods⟩ := d
  cases superclass with
  | none => exact .inl (List.mem_singleton.mp h)
  | some parent =>
    rcases List.mem_cons.mp h with h | h
    · exact .inl h
    · exact .inr ⟨parent, rfl, h⟩

theorem chain_subset {c : Class} : ∀ {d : Class}, c ∈ d.chain → c.chain ⊆ d.chain
  | ⟨_, _, none, _⟩, h => by
    rw [List.mem_singleton.mp h]
    exact List.Subset.refl _
  | ⟨_, _, some parent, _⟩, h => by
    rcases List.mem_cons.mp h with rfl | h
    · exact List.Subset.refl _
    · exact fun e he => List.mem_cons_of_mem _ (chain_subset (d := parent) h he)
termination_by structural d => d

/-- The superclasses of a class in a chain are in the chain. -/
theorem superclass_chain_subset {c d parent : Class} (h : c ∈ d.chain)
    (hparent : c.superclass = some parent) : parent.chain ⊆ d.chain := by
  refine fun e he => chain_subset h ?_
  obtain ⟨id, name, superclass, methods⟩ := c
  cases hparent
  exact List.mem_cons_of_mem _ he

theorem findMethod_eq_or (name : String) (c : Class) :
    c.findMethod name =
      (c.methods.find? (·.name == name)).or (c.superclass.bind (findMethod name)) := by
  obtain ⟨id, cname, superclass, methods⟩ := c
  cases superclass with
  | none => simp [findMethod]
  | some parent =>
    simp only [findMethod, Option.bind_some]
    cases methods.find? (·.name == name) <;> rfl

/-- **A method is looked for upwards**, in the class and its superclasses. -/
theorem findMethod_eq (name : String) : ∀ c : Class,
    c.findMethod name = c.chain.findSome? fun k => k.methods.find? (·.name == name)
  | ⟨_, _, none, methods⟩ => by
    simp only [findMethod, chain, List.findSome?_cons, List.findSome?_nil]
    cases methods.find? (·.name == name) <;> rfl
  | ⟨_, _, some parent, methods⟩ => by
    simp only [findMethod, chain, List.findSome?_cons]
    cases methods.find? (·.name == name) with
    | some method => rfl
    | none => exact findMethod_eq name parent
termination_by structural c => c

theorem exists_of_findMethod {name : String} {c : Class} {fn : Function}
    (h : c.findMethod name = some fn) : ∃ k ∈ c.chain, fn ∈ k.methods := by
  rw [findMethod_eq] at h
  obtain ⟨k, hk, hfn⟩ := List.exists_of_findSome?_eq_some h
  exact ⟨k, hk, List.mem_of_find?_eq_some hfn⟩

end Class

namespace Run

open Exec

/-! ## Bound methods -/

/-- **The function came about by binding the method to the receiver.** -/
def Bound (st : Store) (method : Function) (receiver : InstanceId) (fn : Function) : Prop :=
  ∃ m m', bindMethod method receiver m = .ok fn m' ∧ m'.store.Later st

section
variable {st st' : Store} {method fn : Function} {receiver : InstanceId}

theorem Bound.later (h : Bound st method receiver fn) (hst : st.Later st') :
    Bound st' method receiver fn := by
  obtain ⟨m, m', hbind, hlater⟩ := h
  exact ⟨m, m', hbind, hlater.trans hst⟩

/-- In the frame of a bound method `this` is the receiver. -/
theorem Bound.this (h : Bound st method receiver fn) :
    st.get? fn.frame "this" = some (.object receiver) := by
  obtain ⟨m, m', hbind, hlater⟩ := h
  cases hbind
  refine hlater.keyword _ _ _ (.inl rfl) ?_
  show (m.store.newFrame _ _).2.get? m.store.frames.size "this" = _
  rw [Store.get?_newFrame, if_pos rfl]
  rfl

/-- Around it is the frame in which the method was made. -/
theorem Bound.enclosing (h : Bound st method receiver fn) :
    st.enclosing? fn.frame = some method.frame := by
  obtain ⟨m, m', hbind, hlater⟩ := h
  cases hbind
  refine hlater.enclosing _ _ ?_
  show (m.store.newFrame _ _).2.enclosing? m.store.frames.size = _
  rw [Store.enclosing?_newFrame, if_pos rfl]

end

/-! ## Class declarations -/

/-- The methods of the declarations, made in `frame` with the identities from `id` on. -/
def methodsFrom (frame : FrameId) (id : Nat) (decls : List FunctionDecl) : List Function :=
  (decls.zipIdx id).map fun (decl, id) => ⟨id, decl, frame⟩

theorem mem_methodsFrom {frame : FrameId} {id : Nat} {decls : List FunctionDecl} {fn : Function}
    (h : fn ∈ methodsFrom frame id decls) : ∃ i, ∃ d ∈ decls, fn = ⟨i, d, frame⟩ := by
  obtain ⟨⟨d, i⟩, hd, rfl⟩ := List.mem_map.mp h
  exact ⟨i, d, List.fst_mem_of_mem_zipIdx hd, rfl⟩

/-- **What `newMethods` makes**: a method for each declaration, the last one first. -/
theorem newMethods_spec (frame : FrameId) (decls : List FunctionDecl) (made : List Function)
    (m : Machine) :
    newMethods frame decls made m = .ok ((methodsFrom frame m.nextId decls).reverse ++ made)
      { m with nextId := m.nextId + decls.length } := by
  induction decls generalizing made m with
  | nil => rfl
  | cons d ds ih =>
    show newMethods frame ds (⟨m.nextId, d, frame⟩ :: made) { m with nextId := m.nextId + 1 } = _
    rw [ih, methodsFrom, methodsFrom, List.zipIdx_cons, List.map_cons, List.reverse_cons,
      List.append_assoc, List.length_cons, Nat.add_comm ds.length 1, ← Nat.add_assoc]
    rfl

/-- The methods that are made are those there were and methods of the declarations. -/
theorem newMethods_eq (frame : FrameId) (decls : List FunctionDecl) (made : List Function)
    (m : Machine) :
    ∃ fns k, newMethods frame decls made m = .ok fns { m with nextId := k } ∧
      ∀ fn ∈ fns, fn ∈ made ∨ ∃ id, ∃ d ∈ decls, fn = ⟨id, d, frame⟩ := by
  refine ⟨_, _, newMethods_spec frame decls made m, fun fn hfn => ?_⟩
  rcases List.mem_append.mp hfn with hfn | hfn
  · exact .inr (mem_methodsFrom (List.mem_reverse.mp hfn))
  · exact .inl hfn

/-- The superclass of a class that is about to be declared. -/
def readParent (σ : Scoping) (superclass : Option Superclass) : Exec (Option Class) :=
  match superclass with
  | none => pure none
  | some parent => do
    match ← readRef σ parent.ref parent.name with
    | .cls c => pure (some c)
    | _ => raise parent.name .superclassNotClass

/-- The frame in which the methods of a class are made. -/
def methodFrame (parent : Option Class) (frame : FrameId) : Exec FrameId :=
  match parent with
  | none => pure frame
  | some c => newFrame [("super", .cls c)] frame

/-- A class declaration up to the point where its name is bound to the class: the frame in which
that happens, and the class. -/
def makeClass (σ : Scoping) (decl : ClassDecl) : Exec (FrameId × Class) := do
  let parent ← readParent σ decl.superclass
  define decl.name.lexeme .null
  let frame ← currentFrame
  let inner ← methodFrame parent frame
  let methods ← newMethods inner decl.methods []
  return (frame, ⟨← freshId, decl.name.lexeme, parent, methods⟩)

/-- **The frame of the methods is left again**: what comes after them goes on in the frame that was the
current one before. -/
theorem setFrame_newMethods {m : Machine} {α : Type} (inner : FrameId) (decls : List FunctionDecl)
    (f : List Function → Nat → Exec α) :
    (do
      setFrame inner
      let methods ← newMethods (← currentFrame) decls []
      let id ← freshId
      setFrame m.current
      f methods id) m = (do
      let methods ← newMethods inner decls []
      let id ← freshId
      f methods id) m := by
  show (newMethods inner decls [] >>= _) { m with current := inner } = _
  rw [bind_of_ok (newMethods_spec inner decls [] _), bind_of_ok (newMethods_spec inner decls [] m)]
  rfl

theorem declareClass_eq (σ : Scoping) (decl : ClassDecl) :
    declareClass σ decl =
      makeClass σ decl >>= fun made => assignFrom made.1 decl.name (.cls made.2) := by
  obtain ⟨name, superclass, interface, methods⟩ := decl
  cases superclass with
  | none =>
    simp only [declareClass, makeClass, readParent, methodFrame, bind_assoc, pure_bind]
    refine congrArg (define name.lexeme .null >>= ·) (funext fun _ => funext fun m => ?_)
    exact setFrame_newMethods m.current methods fun fns id =>
      assignFrom m.current name (.cls ⟨id, name.lexeme, none, fns⟩)
  | some parent =>
    have raise_bind (site : Token) (cause : Cause) {α β : Type} (f : α → Exec β) :
        (raise site cause >>= f) = raise site cause := rfl
    simp only [declareClass, makeClass, readParent, bind_assoc]
    congr 1
    funext value
    cases value with
    | cls c =>
      simp only [methodFrame, pure_bind]
      refine congrArg (define name.lexeme .null >>= ·) (funext fun _ => funext fun m => ?_)
      exact setFrame_newMethods (m := { m with store := _ }) _ methods fun fns id =>
        assignFrom m.current name (.cls ⟨id, name.lexeme, some c, fns⟩)
    | _ => simp only [raise_bind]

theorem readParent_ok {σ : Scoping} {superclass : Option Superclass} {m m' : Machine}
    {parent : Option Class} (h : readParent σ superclass m = .ok parent m') :
    parent.isSome = superclass.isSome := by
  cases superclass with
  | none =>
    cases h
    rfl
  | some p =>
    obtain ⟨value, m₁, -, h⟩ := bind_eq_ok h
    cases value <;> cases h
    rfl

/-- **What a class declaration makes**: a class that has a superclass if the declaration says so, and
methods of the declaration, in a frame that binds `super` to that class. -/
theorem makeClass_ok {σ : Scoping} {decl : ClassDecl} {m m' : Machine} {frame : FrameId} {K : Class}
    (h : makeClass σ decl m = .ok (frame, K) m') :
    K.superclass.isSome = decl.superclass.isSome ∧ ∀ fn ∈ K.methods, fn.decl ∈ decl.methods ∧
      ∀ parent, K.superclass = some parent →
        m'.store.get? fn.frame "super" = some (.cls parent) := by
  obtain ⟨parent, m₁, hparent, h⟩ := bind_eq_ok h
  obtain ⟨_, m₂, -, h⟩ := bind_eq_ok h
  obtain ⟨_, m₃, hcurrent, h⟩ := bind_eq_ok h
  cases hcurrent
  obtain ⟨inner, m₄, hinner, h⟩ := bind_eq_ok h
  obtain ⟨fns, k, heq, hfns⟩ := newMethods_eq inner decl.methods [] m₄
  rw [bind_of_ok heq] at h
  cases h
  refine ⟨readParent_ok hparent, fun fn hfn => ?_⟩
  obtain hnone | ⟨id, d, hd, rfl⟩ := hfns fn hfn
  · cases hnone
  refine ⟨hd, fun c hc => ?_⟩
  cases (show parent = some c from hc)
  cases hinner
  show (m₂.store.newFrame _ _).2.get? m₂.store.frames.size "super" = _
  rw [Store.get?_newFrame, if_pos rfl]
  rfl

/-- **The class was made by the declaration.** -/
def Made (st : Store) (decl : ClassDecl) (K : Class) : Prop :=
  ∃ (distances : Distances) (frame : FrameId) (m m' : Machine),
    makeClass (.byDistance distances) decl m = .ok (frame, K) m' ∧ m'.store.Later st

section
variable {st st' : Store} {decl : ClassDecl} {K : Class}

theorem Made.later (h : Made st decl K) (hst : st.Later st') : Made st' decl K := by
  obtain ⟨distances, frame, m, m', hmade, hlater⟩ := h
  exact ⟨distances, frame, m, m', hmade, hlater.trans hst⟩

theorem Made.isSome_superclass (h : Made st decl K) :
    K.superclass.isSome = decl.superclass.isSome := by
  obtain ⟨_, _, m, m', hmade, -⟩ := h
  exact (makeClass_ok hmade).1

/-- The methods of a class are in a frame in which `super` is its superclass. -/
theorem Made.super (h : Made st decl K) {fn : Function} (hfn : fn ∈ K.methods) {parent : Class}
    (hparent : K.superclass = some parent) :
    st.get? fn.frame "super" = some (.cls parent) := by
  obtain ⟨_, _, m, m', hmade, hlater⟩ := h
  exact hlater.keyword _ _ _ (.inr rfl) (((makeClass_ok hmade).2 fn hfn).2 parent hparent)

end

end Run

end Scriptlet
