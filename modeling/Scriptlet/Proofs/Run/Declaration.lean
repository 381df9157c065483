import Scriptlet.Proofs.Run.Method

/-!
# A class declaration is all or nothing

A class declaration reads the superclass before it changes anything. After that nothing can go wrong: its
name is bound in the current frame, so it is there that the class is bound in the end, whatever frames
around bind the same name.

Results:
* `readParent_cases`: the superclass is read, or the declaration is refused.
* `declareClass_read`: the machine after a declaration that is not refused.
* `findMethod_methodsFrom`: **of several methods of one name, the last one is found.**
* `class_declaration_atomic`: **a declaration that fails changes nothing; one that succeeds binds its
  name in the current frame, and changes nothing else that was there.**
-/

namespace Scriptlet

namespace Run

open Exec

/-! ## The superclass -/

/-- **The superclass is read**: the class its reference is bound to, if the declaration names one. -/
inductive ReadsParent (σ : Scoping) (m : Machine) : Option Superclass → Option Class → Prop
  | none : ReadsParent σ m none none
  | some {p c} (h : readRef σ p.ref p.name m = .ok (.cls c) m) : ReadsParent σ m (some p) (some c)

/-- **The superclass is refused**: its reference cannot be read, or is not bound to a class. -/
inductive Refuses (σ : Scoping) (m : Machine) : Option Superclass → Fault → Prop
  | unread {p fault} (h : readRef σ p.ref p.name m = .fault fault m) : Refuses σ m (some p) fault
  | notClass {p v} (h : readRef σ p.ref p.name m = .ok v m) (hv : ∀ c, v ≠ .cls c) :
    Refuses σ m (some p) ⟨p.name, .superclassNotClass⟩

variable {σ : Scoping} {m : Machine}

theorem ofOption_cases {α : Type} (o : Option α) (fault : Fault) (m : Machine) :
    (∃ v, ofOption o fault m = .ok v m) ∨ ofOption o fault m = .fault fault m := by
  cases o with
  | none => exact .inr rfl
  | some v => exact .inl ⟨v, rfl⟩

/-- Reading a reference leaves everything as it is. -/
theorem readRef_cases (σ : Scoping) (ref : RefId) (name : Token) (m : Machine) :
    (∃ v, readRef σ ref name m = .ok v m) ∨ ∃ fault, readRef σ ref name m = .fault fault m :=
  (ofOption_cases _ (.undefinedVariable name) m).imp_right fun h => ⟨_, h⟩

/-- **The superclass is read or refused**, and nothing has changed by then. -/
theorem readParent_cases (σ : Scoping) (superclass : Option Superclass) (m : Machine) :
    (∃ fault, readParent σ superclass m = .fault fault m ∧ Refuses σ m superclass fault) ∨
      ∃ parent, readParent σ superclass m = .ok parent m ∧ ReadsParent σ m superclass parent := by
  cases superclass with
  | none => exact .inr ⟨none, rfl, .none⟩
  | some p =>
    rcases readRef_cases σ p.ref p.name m with ⟨v, hread⟩ | ⟨fault, hread⟩
    · cases v with
      | cls c => exact .inr ⟨some c, bind_of_ok hread, .some hread⟩
      | _ => exact .inl ⟨_, bind_of_ok hread, .notClass hread (by rintro c ⟨⟩)⟩
    · refine .inl ⟨fault, ?_, .unread hread⟩
      show Exec.bind (readRef σ p.ref p.name) _ m = _
      unfold Exec.bind
      rw [hread]

theorem ReadsParent.not_refuses {superclass : Option Superclass} {parent : Option Class}
    {fault : Fault} (h : ReadsParent σ m superclass parent) : ¬ Refuses σ m superclass fault := by
  intro hrefuses
  cases h with
  | none => cases hrefuses
  | some h =>
    cases hrefuses with
    | unread h' => rw [h] at h'; cases h'
    | notClass h' hv =>
      rw [h] at h'
      cases h'
      exact hv _ rfl

/-! ## The class and its methods -/

/-- The frame in which the methods of a class are made. -/
def home (parent : Option Class) (m : Machine) : FrameId :=
  match parent with
  | none => m.current
  | some _ => m.store.frames.size

/-- The class that a declaration makes. -/
def classOf (decl : ClassDecl) (parent : Option Class) (m : Machine) : Class where
  id := m.nextId + decl.methods.length
  name := decl.name.lexeme
  superclass := parent
  methods := (methodsFrom (home parent m) m.nextId decl.methods).reverse

/-- The store with the frame that binds `super`, if there is a superclass. -/
def withSuper (parent : Option Class) (frame : FrameId) (s : Store) : Store :=
  match parent with
  | none => s
  | some c => (s.newFrame [("super", .cls c)] (some frame)).2

/-- The store after a declaration: the name is bound, the frame of the methods added, and the name bound
again. -/
def storeOf (decl : ClassDecl) (parent : Option Class) (m : Machine) : Store :=
  (withSuper parent m.current (m.store.define m.current decl.name.lexeme .null)).define m.current
    decl.name.lexeme (.cls (classOf decl parent m))

theorem get?_withSuper (parent : Option Class) (frame : FrameId) {s : Store} {f : FrameId}
    (hf : f < s.frames.size) (x : String) :
    (withSuper parent frame s).get? f x = s.get? f x := by
  cases parent with
  | none => rfl
  | some c =>
    unfold withSuper
    rw [Store.get?_newFrame, if_neg (Nat.ne_of_lt hf)]

theorem enclosing?_withSuper (parent : Option Class) (frame : FrameId) {s : Store} {f : FrameId}
    (hf : f < s.frames.size) : (withSuper parent frame s).enclosing? f = s.enclosing? f := by
  cases parent with
  | none => rfl
  | some c =>
    unfold withSuper
    rw [Store.enclosing?_newFrame, if_neg (Nat.ne_of_lt hf)]

theorem size_withSuper (parent : Option Class) (frame : FrameId) (s : Store) :
    (withSuper parent frame s).frames.size = s.frames.size + if parent.isSome then 1 else 0 := by
  cases parent with
  | none => rfl
  | some c => exact Store.size_newFrame _ _ s

theorem makeClass_read {decl : ClassDecl} {parent : Option Class}
    (h : readParent σ decl.superclass m = .ok parent m) :
    makeClass σ decl m = .ok (m.current, classOf decl parent m)
      { m with
        store := withSuper parent m.current (m.store.define m.current decl.name.lexeme .null)
        nextId := m.nextId + decl.methods.length + 1 } := by
  unfold makeClass
  rw [bind_of_ok h]
  cases parent with
  | none =>
    show (newMethods m.current decl.methods [] >>= _)
      (m.mapStore (·.define m.current decl.name.lexeme .null)) = _
    rw [bind_of_ok (newMethods_spec _ _ _ _), List.append_nil]
    rfl
  | some c =>
    show (newMethods (m.store.define m.current decl.name.lexeme .null).frames.size decl.methods []
      >>= _) (m.mapStore fun s => withSuper (some c) m.current
        (s.define m.current decl.name.lexeme .null)) = _
    rw [bind_of_ok (newMethods_spec _ _ _ _), List.append_nil, Store.size_define]
    rfl

/-- **A declaration that is not refused**: its name is bound in the current frame, so that is where the
class is bound. -/
theorem declareClass_read {decl : ClassDecl} {parent : Option Class}
    (hcurrent : m.current < m.store.frames.size)
    (h : readParent σ decl.superclass m = .ok parent m) :
    declareClass σ decl m = .ok ()
      { m with
        store := storeOf decl parent m
        nextId := m.nextId + decl.methods.length + 1 } := by
  have hbound : (withSuper parent m.current (m.store.define m.current decl.name.lexeme .null)).get?
      m.current decl.name.lexeme = some .null := by
    rw [get?_withSuper _ _ (by rwa [Store.size_define]), Store.get?_define,
      if_pos ⟨rfl, rfl, hcurrent⟩]
  rw [declareClass_eq, bind_of_ok (makeClass_read h)]
  show assignIn (Store.owner? _ m.current decl.name.lexeme) decl.name _ _ = _
  rw [Store.owner?_self (Option.isSome_of_eq_some hbound)]
  rfl

/-- **Of several methods of one name, the last one is found.** -/
theorem find?_methodsFrom {frame : FrameId} {id : Nat} {before after : List FunctionDecl}
    {d : FunctionDecl} (hafter : ∀ e ∈ after, e.name.lexeme ≠ d.name.lexeme) :
    (methodsFrom frame id (before ++ d :: after)).reverse.find? (·.name == d.name.lexeme) =
      some ⟨id + before.length, d, frame⟩ := by
  have hlater : (methodsFrom frame (id + before.length + 1) after).reverse.find?
      (·.name == d.name.lexeme) = none := by
    refine List.find?_eq_none.mpr fun fn hfn => ?_
    obtain ⟨i, e, he, rfl⟩ := mem_methodsFrom (List.mem_reverse.mp hfn)
    simpa [Function.name] using hafter e he
  unfold methodsFrom at hlater ⊢
  rw [List.zipIdx_append, List.zipIdx_cons, List.map_append, List.map_cons, List.reverse_append,
    List.reverse_cons, List.append_assoc, List.find?_append, hlater]
  simp [Function.name]

theorem find?_methodsFrom_none {frame : FrameId} {id : Nat} {decls : List FunctionDecl}
    {name : String} (h : ∀ d ∈ decls, d.name.lexeme ≠ name) :
    (methodsFrom frame id decls).reverse.find? (·.name == name) = none := by
  refine List.find?_eq_none.mpr fun fn hfn => ?_
  obtain ⟨i, d, hd, rfl⟩ := mem_methodsFrom (List.mem_reverse.mp hfn)
  simpa [Function.name] using h d hd

/-! ## What a declaration changes -/

/-- **What a declaration changes**: the current frame binds the name of the class to `K`, a new class.
A frame around its methods is added if there is a superclass. -/
structure Declares (decl : ClassDecl) (K : Class) (m m' : Machine) : Prop where
  name : K.name = decl.name.lexeme
  /-- Its identity is given to nothing else. -/
  fresh : m.nextId ≤ K.id ∧ K.id < m'.nextId
  get? (f : FrameId) (hf : f < m.store.frames.size) (x : String) :
    m'.store.get? f x =
      if f = m.current ∧ x = decl.name.lexeme then some (.cls K) else m.store.get? f x
  enclosing? (f : FrameId) (hf : f < m.store.frames.size) :
    m'.store.enclosing? f = m.store.enclosing? f
  instances : m'.store.instances = m.store.instances
  size : m'.store.frames.size = m.store.frames.size + if K.superclass.isSome then 1 else 0
  around (c : Class) (hc : K.superclass = some c) :
    m'.store.get? m.store.frames.size "super" = some (.cls c) ∧
      m'.store.enclosing? m.store.frames.size = some m.current
  rest : { m' with store := m.store, nextId := m.nextId } = m
  /-- The last method that is declared under a name is found under it. -/
  own {before after : List FunctionDecl} {d : FunctionDecl}
    (hdecl : decl.methods = before ++ d :: after)
    (hafter : ∀ e ∈ after, e.name.lexeme ≠ d.name.lexeme) :
    K.findMethod d.name.lexeme = some ⟨m.nextId + before.length, d, home K.superclass m⟩
  /-- Under the other names are the methods of the superclass. -/
  inherited {x : String} (h : ∀ d ∈ decl.methods, d.name.lexeme ≠ x) :
    K.findMethod x = K.superclass.bind (Class.findMethod x)

theorem declares_classOf (decl : ClassDecl) (parent : Option Class)
    (hcurrent : m.current < m.store.frames.size) :
    Declares decl (classOf decl parent m) m
      { m with
        store := storeOf decl parent m
        nextId := m.nextId + decl.methods.length + 1 } where
  name := rfl
  fresh := ⟨Nat.le_add_right _ _, Nat.lt_succ_self _⟩
  get? f hf x := by
    have hsize : m.current < (withSuper parent m.current
        (m.store.define m.current decl.name.lexeme .null)).frames.size := by
      rw [size_withSuper, Store.size_define]
      exact Nat.lt_of_lt_of_le hcurrent (Nat.le_add_right _ _)
    show (storeOf decl parent m).get? f x = _
    rw [storeOf, Store.get?_define, get?_withSuper _ _ (by rwa [Store.size_define]),
      Store.get?_define]
    split_ifs <;> simp_all
  enclosing? f hf := by
    show (storeOf decl parent m).enclosing? f = _
    rw [storeOf, Store.enclosing?_define, enclosing?_withSuper _ _ (by rwa [Store.size_define]),
      Store.enclosing?_define]
  instances := by cases parent <;> rfl
  size := by
    show (storeOf decl parent m).frames.size = _
    rw [storeOf, Store.size_define, size_withSuper, Store.size_define]
    rfl
  around c hc := by
    obtain rfl : parent = some c := hc
    show (storeOf decl (some c) m).get? _ _ = _ ∧ (storeOf decl (some c) m).enclosing? _ = _
    unfold storeOf withSuper
    rw [Store.get?_define, if_neg fun h => Nat.ne_of_gt hcurrent h.1, Store.get?_newFrame,
      Store.enclosing?_define, Store.enclosing?_newFrame, Store.size_define, if_pos rfl, if_pos rfl]
    exact ⟨rfl, rfl⟩
  rest := rfl
  own {before after d} hdecl hafter := by
    rw [Class.findMethod_eq_or]
    show ((methodsFrom _ _ decl.methods).reverse.find? _).or _ = _
    rw [hdecl, find?_methodsFrom hafter]
    rfl
  inherited {x} h := by
    rw [Class.findMethod_eq_or]
    show ((methodsFrom _ _ decl.methods).reverse.find? _).or _ = _
    rw [find?_methodsFrom_none h]
    rfl

/-- **A class declaration is all or nothing.** It fails if and only if the superclass is refused, and
then everything is as it was; otherwise it declares a class with the superclass that is read. -/
theorem class_declaration_atomic (σ : Scoping) (decl : ClassDecl) {m : Machine}
    (hcurrent : m.current < m.store.frames.size) :
    ((∃ fault m', declareClass σ decl m = .fault fault m') ↔
      ∃ fault, Refuses σ m decl.superclass fault) ∧
    ((∃ fault, declareClass σ decl m = .fault fault m ∧ Refuses σ m decl.superclass fault) ∨
      ∃ K m', declareClass σ decl m = .ok () m' ∧ ReadsParent σ m decl.superclass K.superclass ∧
        Declares decl K m m') := by
  rcases readParent_cases σ decl.superclass m with
    ⟨fault, hparent, hrefuses⟩ | ⟨parent, hparent, hreads⟩
  · have hfault : declareClass σ decl m = .fault fault m := by
      rw [declareClass_eq]
      show Exec.bind (Exec.bind (readParent σ decl.superclass) _) _ m = _
      unfold Exec.bind
      rw [hparent]
    exact ⟨⟨fun _ => ⟨fault, hrefuses⟩, fun _ => ⟨fault, m, hfault⟩⟩,
      .inl ⟨fault, hfault, hrefuses⟩⟩
  · have hok := declareClass_read hcurrent hparent
    refine ⟨⟨fun ⟨fault, m', hfault⟩ => ?_, fun ⟨fault, hrefuses⟩ => ?_⟩,
      .inr ⟨_, _, hok, hreads, declares_classOf decl parent hcurrent⟩⟩
    · rw [hok] at hfault
      cases hfault
    · exact absurd hrefuses hreads.not_refuses

/-- A method without parameters that does nothing. -/
def idle (name : String) (line : Nat) : FunctionDecl := ⟨⟨.symbol .identifier, name, line⟩, [], []⟩

/-- A class `B` with two methods `f`, and a superclass `A`. -/
def twice : ClassDecl where
  name := ⟨.symbol .identifier, "B", 1⟩
  superclass := some ⟨0, ⟨.symbol .identifier, "A", 1⟩⟩
  interface := none
  methods := [idle "f" 2, idle "g" 3, idle "f" 4]

/-- A machine on which `A` is bound to a class with the methods `f` and `h`. -/
def beforeTwice : Machine :=
  { Machine.initial .nan none with
    store := ⟨#[⟨[("A", .cls ⟨2, "A", none, [⟨0, idle "f" 0, 0⟩, ⟨1, idle "h" 0, 0⟩]⟩)], none⟩], #[]⟩
    nextId := 3 }

theorem class_declaration_atomic_twice :
    beforeTwice.current < beforeTwice.store.frames.size ∧ ∃ K m',
      declareClass .byName twice beforeTwice = .ok () m' ∧
      ReadsParent .byName beforeTwice twice.superclass K.superclass ∧
      Declares twice K beforeTwice m' ∧
      K.findMethod "f" = some ⟨5, idle "f" 4, 1⟩ ∧ K.findMethod "h" = some ⟨1, idle "h" 0, 0⟩ := by
  have hcurrent : beforeTwice.current < beforeTwice.store.frames.size := by decide
  refine ⟨hcurrent, ?_⟩
  rcases (class_declaration_atomic .byName twice hcurrent).2 with ⟨fault, hfault, -⟩ | h
  · cases hfault
  · obtain ⟨K, m', hok, hreads, hdeclares⟩ := h
    have hsuper : K.superclass = some ⟨2, "A", none, [⟨0, idle "f" 0, 0⟩, ⟨1, idle "h" 0, 0⟩]⟩ := by
      generalize K.superclass = parent at hreads
      cases hreads with
      | some hread => cases hread; rfl
    refine ⟨K, m', hok, hreads, hdeclares, ?_, ?_⟩
    · have hmethods : twice.methods = [idle "f" 2, idle "g" 3] ++ idle "f" 4 :: [] := rfl
      have hown := hdeclares.own hmethods (List.forall_mem_nil _)
      rw [hsuper] at hown
      exact hown
    · have hinherited := hdeclares.inherited (x := "h") (by decide)
      rw [hsuper] at hinherited
      exact hinherited

end Run

end Scriptlet
