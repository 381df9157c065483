import Scriptlet.Proofs.Run.Method
import Mathlib.Logic.Relation

/-!
# What a run can get hold of

Frames, functions, classes and instances refer to each other, in circles if need be: a function to the
frame it was made in, a frame to what its names are bound to, an instance to its fields and its class.
`Link` is one such step. A run holds what is at hand when it begins, what can be reached from there by
links, and what it makes itself (`Owned`), and nothing else.

The invariant of a run (`Confines`) is that the links of the store never lead out of what is owned. It
is kept by every change of the store that only touches what is owned. Two things follow from it: what
is not owned is never changed, and everything that is made is made of what was there before, so a new
frame is enclosed by an earlier one and a new class has an earlier superclass.

Results:
* `Store.grows_define` and its siblings: every change of the store lets it grow.
* `Owned.mono`: what is owned stays so.
* `Confines.newFrame`, `Confines.define`, `Confines.newInstance`, `Confines.setField`,
  `Confines.newId`: **the invariant is kept by every change.**
* `Confines.closed`: links do not lead out of what is owned.
-/

namespace Scriptlet

/-! ## Stores that grow -/

namespace Store

/-- **A store has only grown.** Frames and instances have been added, names and fields have been bound;
what encloses a frame and what an instance is an instance of have stayed. -/
structure Grows (s s' : Store) : Prop where
  frames : s.frames.size ≤ s'.frames.size
  instances : s.instances.size ≤ s'.instances.size
  enclosing (f : FrameId) (hf : f < s.frames.size) : s'.enclosing? f = s.enclosing? f
  bound (f : FrameId) (x : String) (h : (s.get? f x).isSome = true) : (s'.get? f x).isSome = true
  cls (i : InstanceId) (hi : i < s.instances.size) : s'.class? i = s.class? i
  field (i : InstanceId) (x : String) (h : (s.field? i x).isSome = true) :
    (s'.field? i x).isSome = true

theorem Grows.refl (s : Store) : s.Grows s :=
  ⟨Nat.le_refl _, Nat.le_refl _, fun _ _ => rfl, fun _ _ h => h, fun _ _ => rfl, fun _ _ h => h⟩

theorem Grows.trans {s t u : Store} (h : s.Grows t) (h' : t.Grows u) : s.Grows u where
  frames := Nat.le_trans h.frames h'.frames
  instances := Nat.le_trans h.instances h'.instances
  enclosing f hf :=
    (h'.enclosing f (Nat.lt_of_lt_of_le hf h.frames)).trans (h.enclosing f hf)
  bound f x hx := h'.bound f x (h.bound f x hx)
  cls i hi := (h'.cls i (Nat.lt_of_lt_of_le hi h.instances)).trans (h.cls i hi)
  field i x hx := h'.field i x (h.field i x hx)

theorem field?_lt {s : Store} {i : InstanceId} {x : String} (h : (s.field? i x).isSome = true) :
    i < s.instances.size := by
  unfold field? at h
  cases hi : s.instances[i]? with
  | none => rw [hi] at h; cases h
  | some object => exact (Array.getElem?_eq_some_iff.mp hi).1

theorem class?_lt {s : Store} {i : InstanceId} {c : Class} (h : s.class? i = some c) :
    i < s.instances.size := by
  obtain ⟨object, hobject, -⟩ := Option.map_eq_some_iff.mp h
  exact (Array.getElem?_eq_some_iff.mp hobject).1

@[simp]
theorem size_setField (i : InstanceId) (name : String) (value : Value) (s : Store) :
    (s.setField i name value).instances.size = s.instances.size := by
  simp [setField]

@[simp]
theorem size_newInstance (c : Class) (s : Store) :
    (s.newInstance c).2.instances.size = s.instances.size + 1 := by
  simp [newInstance]

variable (s : Store)

theorem grows_define (f : FrameId) (name : String) (value : Value) :
    s.Grows (s.define f name value) := by
  refine ⟨by simp, Nat.le_refl _, fun g _ => enclosing?_define f name value s g, fun g x h => ?_,
    fun _ _ => rfl, fun _ _ h => h⟩
  rw [get?_define]
  split_ifs
  · rfl
  · exact h

theorem grows_newFrame (bs : Bindings) (e : Option FrameId) : s.Grows (s.newFrame bs e).2 := by
  refine ⟨by simp, Nat.le_refl _, fun g hg => ?_, fun g x h => ?_, fun _ _ => rfl, fun _ _ h => h⟩
  · rw [enclosing?_newFrame, if_neg (Nat.ne_of_lt hg)]
  · rwa [get?_newFrame, if_neg (Nat.ne_of_lt (get?_lt h))]

theorem grows_newInstance (c : Class) : s.Grows (s.newInstance c).2 := by
  refine ⟨Nat.le_refl _, by simp, fun _ _ => rfl, fun _ _ h => h, fun i hi => ?_, fun i x h => ?_⟩
  · rw [class?_newInstance, if_neg (Nat.ne_of_lt hi)]
  · rwa [field?_newInstance, if_neg (Nat.ne_of_lt (field?_lt h))]

theorem grows_setField (i : InstanceId) (name : String) (value : Value) :
    s.Grows (s.setField i name value) := by
  refine ⟨Nat.le_refl _, by simp, fun _ _ => rfl, fun _ _ h => h,
    fun j _ => class?_setField i name value s j, fun j x h => ?_⟩
  rw [field?_setField]
  split_ifs
  · rfl
  · exact h

end Store

/-- A value that is no object and refers to none. -/
def Value.IsPlain : Value → Prop
  | null | bool _ | number _ | string _ => True
  | _ => False

namespace Run

/-! ## Links -/

/-- Something that a run can hold. -/
inductive Item where
  | frame (f : FrameId)
  | value (v : Value)

/-- **One step from an item to another that it refers to.** -/
inductive Link (st : Store) : Item → Item → Prop
  | enclosing {f g} (h : st.enclosing? f = some g) : Link st (.frame f) (.frame g)
  | bound {f x v} (h : st.get? f x = some v) : Link st (.frame f) (.value v)
  | closure {fn : Function} : Link st (.value (.function fn)) (.frame fn.frame)
  | method {c : Class} {fn} (h : fn ∈ c.methods) : Link st (.value (.cls c)) (.value (.function fn))
  | superclass {c : Class} {parent} (h : c.superclass = some parent) :
    Link st (.value (.cls c)) (.value (.cls parent))
  | field {i x v} (h : st.field? i x = some v) : Link st (.value (.object i)) (.value v)
  | cls {i c} (h : st.class? i = some c) : Link st (.value (.object i)) (.value (.cls c))
  | library {l : Library} {x f} (h : l.function? x = some f) :
    Link st (.value (.library l)) (.value (.native f))

/-- What can be reached by links from one of the roots. -/
def ReachableFrom (st : Store) (roots : Item → Prop) (it : Item) : Prop :=
  ∃ root, roots root ∧ Relation.ReflTransGen (Link st) root it

/-! ## What is owned -/

/-- How many frames, instances and identities there are. -/
structure Extent where
  frames : Nat
  instances : Nat
  ids : Nat

instance : LE Extent :=
  ⟨fun n n' => n.frames ≤ n'.frames ∧ n.instances ≤ n'.instances ∧ n.ids ≤ n'.ids⟩

theorem Extent.le_refl (n : Extent) : n ≤ n := ⟨Nat.le_refl _, Nat.le_refl _, Nat.le_refl _⟩

theorem Extent.le_trans {n n' n'' : Extent} (h : n ≤ n') (h' : n' ≤ n'') : n ≤ n'' :=
  ⟨Nat.le_trans h.1 h'.1, Nat.le_trans h.2.1 h'.2.1, Nat.le_trans h.2.2 h'.2.2⟩

end Run

def Store.extent (st : Store) (ids : Nat) : Run.Extent :=
  ⟨st.frames.size, st.instances.size, ids⟩

theorem Store.Grows.extent_le {s s' : Store} (h : s.Grows s') {k k' : Nat} (hk : k ≤ k') :
    s.extent k ≤ s'.extent k' := ⟨h.frames, h.instances, hk⟩

namespace Run

/-- Where a run begins: the store, the next identity, and what is at hand. The global frame always
is. -/
structure Origin where
  store : Store
  nextId : Nat
  roots : Item → Prop
  global : roots (.frame Store.global)

/-- What can be reached when the run begins. -/
def Origin.Reaches (O : Origin) : Item → Prop := ReachableFrom O.store O.roots

theorem Origin.Reaches.step {O : Origin} {it it' : Item} (h : O.Reaches it)
    (hlink : Link O.store it it') : O.Reaches it' := by
  obtain ⟨root, hroot, hpath⟩ := h
  exact ⟨root, hroot, hpath.tail hlink⟩

/-- **A run owns what it could reach when it began and what has been made since.** A function is made in
a frame that is owned; a class is made of functions that are owned, and of a superclass that could be
reached when the run began or was made before. -/
inductive Owned (O : Origin) (n : Extent) : Item → Prop
  | before {it} (h : O.Reaches it) : Owned O n it
  | plain {v : Value} (h : v.IsPlain) : Owned O n (.value v)
  | frame {f} (hold : O.store.frames.size ≤ f) (hnew : f < n.frames) : Owned O n (.frame f)
  | object {i} (hold : O.store.instances.size ≤ i) (hnew : i < n.instances) :
    Owned O n (.value (.object i))
  | function {fn : Function} (hold : O.nextId ≤ fn.id) (hnew : fn.id < n.ids)
    (hframe : Owned O n (.frame fn.frame)) : Owned O n (.value (.function fn))
  | cls {c : Class} (hold : O.nextId ≤ c.id) (hnew : c.id < n.ids)
    (hmethods : ∀ fn ∈ c.methods, Owned O n (.value (.function fn)))
    (hparent : ∀ parent, c.superclass = some parent → Owned O n (.value (.cls parent)))
    (hearlier : ∀ parent, c.superclass = some parent →
      O.Reaches (.value (.cls parent)) ∨ parent.id < c.id) : Owned O n (.value (.cls c))

namespace Owned

variable {O : Origin} {n n' : Extent} {it it' : Item}

/-- **What is owned stays so.** -/
theorem mono (h : Owned O n it) (hn : n ≤ n') : Owned O n' it := by
  induction h with
  | before h => exact .before h
  | plain h => exact .plain h
  | frame hold hnew => exact .frame hold (Nat.lt_of_lt_of_le hnew hn.1)
  | object hold hnew => exact .object hold (Nat.lt_of_lt_of_le hnew hn.2.1)
  | function hold hnew _ ih => exact .function hold (Nat.lt_of_lt_of_le hnew hn.2.2) ih
  | cls hold hnew _ _ hearlier ihmethods ihparent =>
    exact .cls hold (Nat.lt_of_lt_of_le hnew hn.2.2) ihmethods ihparent hearlier

theorem frame_iff {f : FrameId} :
    Owned O n (.frame f) ↔ O.Reaches (.frame f) ∨ O.store.frames.size ≤ f ∧ f < n.frames := by
  constructor
  · intro h
    cases h with
    | before h => exact .inl h
    | frame hold hnew => exact .inr ⟨hold, hnew⟩
  · rintro (h | ⟨hold, hnew⟩)
    · exact .before h
    · exact .frame hold hnew

theorem object_iff {i : InstanceId} :
    Owned O n (.value (.object i)) ↔
      O.Reaches (.value (.object i)) ∨ O.store.instances.size ≤ i ∧ i < n.instances := by
  constructor
  · intro h
    cases h with
    | before h => exact .inl h
    | plain h => cases h
    | object hold hnew => exact .inr ⟨hold, hnew⟩
  · rintro (h | ⟨hold, hnew⟩)
    · exact .before h
    · exact .object hold hnew

theorem frame_congr {f : FrameId} (h : Owned O n (.frame f)) (hn : n.frames = n'.frames) :
    Owned O n' (.frame f) := by
  rw [frame_iff] at h ⊢
  rwa [← hn]

theorem object_congr {i : InstanceId} (h : Owned O n (.value (.object i)))
    (hn : n.instances = n'.instances) : Owned O n' (.value (.object i)) := by
  rw [object_iff] at h ⊢
  rwa [← hn]

/-- Functions, classes and modules refer to what is owned if they are: they never change. -/
theorem link (h : Owned O n it) {s : Store} (hlink : Link s it it')
    (hframe : ∀ f, it ≠ .frame f) (hobject : ∀ i, it ≠ .value (.object i)) : Owned O n it' := by
  cases hlink with
  | enclosing _ => exact absurd rfl (hframe _)
  | bound _ => exact absurd rfl (hframe _)
  | field _ => exact absurd rfl (hobject _)
  | cls _ => exact absurd rfl (hobject _)
  | closure =>
    cases h with
    | before h => exact .before (h.step .closure)
    | plain h => cases h
    | function _ _ hframe => exact hframe
  | method hmem =>
    cases h with
    | before h => exact .before (h.step (.method hmem))
    | plain h => cases h
    | cls _ _ hmethods _ _ => exact hmethods _ hmem
  | superclass heq =>
    cases h with
    | before h => exact .before (h.step (.superclass heq))
    | plain h => cases h
    | cls _ _ _ hparent _ => exact hparent _ heq
  | library heq =>
    cases h with
    | before h => exact .before (h.step (.library heq))
    | plain h => cases h

theorem closure {fn : Function} (h : Owned O n (.value (.function fn))) :
    Owned O n (.frame fn.frame) :=
  h.link (s := O.store) .closure nofun nofun

theorem native {l : Library} {x : String} {f : Native} (h : Owned O n (.value (.library l)))
    (hf : l.function? x = some f) : Owned O n (.value (.native f)) :=
  h.link (s := O.store) (.library hf) nofun nofun

theorem chain {k : Class} : ∀ {c : Class}, Owned O n (.value (.cls c)) → k ∈ c.chain →
    Owned O n (.value (.cls k))
  | ⟨_, _, none, _⟩, h, hk => by
    rw [List.mem_singleton.mp hk]
    exact h
  | ⟨_, _, some parent, _⟩, h, hk => by
    rcases List.mem_cons.mp hk with rfl | hk
    · exact h
    · exact chain (c := parent) (h.link (s := O.store) (.superclass rfl) nofun nofun) hk
termination_by structural c => c

/-- A class that is owned could be reached, or its identity has been given since. -/
theorem given {c : Class} (h : Owned O n (.value (.cls c))) :
    O.Reaches (.value (.cls c)) ∨ c.id < n.ids := by
  cases h with
  | before h => exact .inl h
  | plain h => cases h
  | cls _ hnew _ _ _ => exact .inr hnew

/-- A method of a class that is owned is owned, wherever it is found. -/
theorem findMethod {c : Class} {name : String} {fn : Function} (h : Owned O n (.value (.cls c)))
    (hfn : c.findMethod name = some fn) : Owned O n (.value (.function fn)) := by
  obtain ⟨k, hk, hmem⟩ := Class.exists_of_findMethod hfn
  exact (h.chain hk).link (s := O.store) (.method hmem) nofun nofun

end Owned

/-! ## The invariant -/

/-- **The run is confined to what it owns.** -/
structure Confines (O : Origin) (st : Store) (ids : Nat) : Prop where
  grows : O.store.Grows st
  ids_le : O.nextId ≤ ids
  enclosing {f g} (hf : Owned O (st.extent ids) (.frame f)) (h : st.enclosing? f = some g) :
    Owned O (st.extent ids) (.frame g)
  bound {f x v} (hf : Owned O (st.extent ids) (.frame f)) (h : st.get? f x = some v) :
    Owned O (st.extent ids) (.value v)
  field {i x v} (hi : Owned O (st.extent ids) (.value (.object i))) (h : st.field? i x = some v) :
    Owned O (st.extent ids) (.value v)
  cls {i c} (hi : Owned O (st.extent ids) (.value (.object i))) (h : st.class? i = some c) :
    Owned O (st.extent ids) (.value (.cls c))
  /-- A frame that has been made is enclosed by one that could be reached or was made before. -/
  outer {f} (hold : O.store.frames.size ≤ f) (hnew : f < st.frames.size) :
    ∃ g, st.enclosing? f = some g ∧ (O.Reaches (.frame g) ∨ g < f)
  /-- A frame that could not be reached is as it was. -/
  frame {f} (hold : f < O.store.frames.size) (h : ¬ O.Reaches (.frame f)) :
    st.frames[f]? = O.store.frames[f]?
  /-- An instance that could not be reached is as it was. -/
  object {i} (hold : i < O.store.instances.size) (h : ¬ O.Reaches (.value (.object i))) :
    st.instances[i]? = O.store.instances[i]?

namespace Confines

variable {O : Origin} {st : Store} {ids : Nat}

/-- The invariant holds when the run begins: nothing has been made. -/
theorem start (O : Origin) : Confines O O.store O.nextId := by
  have hframe {f} (h : Owned O (O.store.extent O.nextId) (.frame f)) : O.Reaches (.frame f) :=
    (Owned.frame_iff.mp h).resolve_right fun hf => Nat.not_lt_of_le hf.1 hf.2
  have hobject {i} (h : Owned O (O.store.extent O.nextId) (.value (.object i))) :
      O.Reaches (.value (.object i)) :=
    (Owned.object_iff.mp h).resolve_right fun hi => Nat.not_lt_of_le hi.1 hi.2
  exact
    { grows := .refl _
      ids_le := Nat.le_refl _
      enclosing := fun hf h => .before ((hframe hf).step (.enclosing h))
      bound := fun hf h => .before ((hframe hf).step (.bound h))
      field := fun hi h => .before ((hobject hi).step (.field h))
      cls := fun hi h => .before ((hobject hi).step (.cls h))
      outer := fun hold hnew => absurd hnew (Nat.not_lt_of_le hold)
      frame := fun _ _ => rfl
      object := fun _ _ => rfl }

/-- **Links do not lead out of what is owned.** -/
theorem closed (h : Confines O st ids) {it it' : Item} (hit : Owned O (st.extent ids) it)
    (hlink : Link st it it') : Owned O (st.extent ids) it' := by
  cases hlink with
  | enclosing heq => exact h.enclosing hit heq
  | bound heq => exact h.bound hit heq
  | field heq => exact h.field hit heq
  | cls heq => exact h.cls hit heq
  | closure => exact hit.closure
  | method hmem => exact hit.link (s := st) (.method hmem) nofun nofun
  | superclass heq => exact hit.link (s := st) (.superclass heq) nofun nofun
  | library heq => exact hit.native heq

/-- What can be reached from what is owned is owned. -/
theorem reachable (h : Confines O st ids) {roots : Item → Prop}
    (hroots : ∀ root, roots root → Owned O (st.extent ids) root) {it : Item}
    (hit : ReachableFrom st roots it) : Owned O (st.extent ids) it := by
  obtain ⟨root, hroot, hpath⟩ := hit
  induction hpath with
  | refl => exact hroots root hroot
  | tail _ hlink ih => exact h.closed ih hlink

/-! ### Changes of the store -/

/-- An old frame that is owned could be reached. -/
theorem reaches_frame {n : Extent} {f : FrameId} (hf : Owned O n (.frame f))
    (hold : f < O.store.frames.size) : O.Reaches (.frame f) :=
  (Owned.frame_iff.mp hf).resolve_right fun h => Nat.not_lt_of_le h.1 hold

theorem reaches_object {n : Extent} {i : InstanceId} (hi : Owned O n (.value (.object i)))
    (hold : i < O.store.instances.size) : O.Reaches (.value (.object i)) :=
  (Owned.object_iff.mp hi).resolve_right fun h => Nat.not_lt_of_le h.1 hold

/-- A new frame of what is owned, inside a frame that is owned. -/
theorem newFrame (h : Confines O st ids) {bs : Bindings} {e : FrameId}
    (he : Owned O (st.extent ids) (.frame e))
    (hbs : ∀ x v, bs.get? x = some v → Owned O (st.extent ids) (.value v)) :
    Confines O (st.newFrame bs (some e)).2 ids := by
  have hgrows := Store.grows_newFrame st bs (some e)
  have hextent := hgrows.extent_le (Nat.le_refl ids)
  -- Every other frame was owned before.
  have hframe {f} (hf : Owned O ((st.newFrame bs (some e)).2.extent ids) (.frame f))
      (hne : f ≠ st.frames.size) : Owned O (st.extent ids) (.frame f) := by
    refine Owned.frame_iff.mpr ((Owned.frame_iff.mp hf).imp_right fun ⟨hold, hnew⟩ => ⟨hold, ?_⟩)
    simp only [Store.extent, Store.size_newFrame] at hnew
    exact Nat.lt_of_le_of_ne (Nat.le_of_lt_succ hnew) hne
  refine
    { grows := h.grows.trans hgrows
      ids_le := h.ids_le
      enclosing := fun {f g} hf heq => ?_
      bound := fun {f x v} hf heq => ?_
      field := fun hi heq => (h.field (hi.object_congr rfl) heq).mono hextent
      cls := fun hi heq => (h.cls (hi.object_congr rfl) heq).mono hextent
      outer := fun {f} hold hnew => ?_
      frame := fun {f} hold hf => ?_
      object := h.object }
  · rw [Store.enclosing?_newFrame] at heq
    split_ifs at heq with hf'
    · cases heq
      exact he.mono hextent
    · exact (h.enclosing (hframe hf hf') heq).mono hextent
  · rw [Store.get?_newFrame] at heq
    split_ifs at heq with hf'
    · exact (hbs x v heq).mono hextent
    · exact (h.bound (hframe hf hf') heq).mono hextent
  · rw [Store.enclosing?_newFrame]
    split_ifs with hf'
    · refine ⟨e, rfl, (Owned.frame_iff.mp he).imp_right fun he' => ?_⟩
      rw [hf']
      exact he'.2
    · rw [Store.size_newFrame] at hnew
      exact h.outer hold (Nat.lt_of_le_of_ne (Nat.le_of_lt_succ hnew) hf')
  · have hlt := Nat.lt_of_lt_of_le hold h.grows.frames
    rw [← h.frame hold hf]
    exact Array.getElem?_push_lt hlt ▸ (Array.getElem?_eq_getElem hlt).symm

/-- A name is bound to what is owned, in a frame that is owned. -/
theorem define (h : Confines O st ids) {f : FrameId} {v : Value} (name : String)
    (hf : Owned O (st.extent ids) (.frame f)) (hv : Owned O (st.extent ids) (.value v)) :
    Confines O (st.define f name v) ids := by
  have hgrows := Store.grows_define st f name v
  have hextent : (st.define f name v).extent ids = st.extent ids := by
    simp only [Store.extent, Store.size_define]
    rfl
  refine
    { grows := h.grows.trans hgrows
      ids_le := h.ids_le
      enclosing := fun {g g'} hg heq => ?_
      bound := fun {g x w} hg heq => ?_
      field := fun hi heq => hextent ▸ h.field (hextent ▸ hi) heq
      cls := fun hi heq => hextent ▸ h.cls (hextent ▸ hi) heq
      outer := fun {g} hold hnew => ?_
      frame := fun {g} hold hg => ?_
      object := h.object }
  · rw [Store.enclosing?_define] at heq
    rw [hextent] at hg ⊢
    exact h.enclosing hg heq
  · rw [hextent] at hg ⊢
    rw [Store.get?_define] at heq
    split_ifs at heq with hchanged
    · cases heq
      exact hv
    · exact h.bound hg heq
  · rw [Store.enclosing?_define]
    rw [Store.size_define] at hnew
    exact h.outer hold hnew
  · have hne : f ≠ g := fun heq => hg (heq ▸ reaches_frame hf (heq ▸ hold))
    rw [← h.frame hold hg]
    show (st.frames.modify f _)[g]? = _
    rw [Array.getElem?_modify, if_neg hne]

/-- A new instance of a class that is owned. -/
theorem newInstance (h : Confines O st ids) {c : Class}
    (hc : Owned O (st.extent ids) (.value (.cls c))) : Confines O (st.newInstance c).2 ids := by
  have hgrows := Store.grows_newInstance st c
  have hextent := hgrows.extent_le (Nat.le_refl ids)
  -- Every other instance was owned before.
  have hobject {i} (hi : Owned O ((st.newInstance c).2.extent ids) (.value (.object i)))
      (hne : i ≠ st.instances.size) : Owned O (st.extent ids) (.value (.object i)) := by
    refine Owned.object_iff.mpr ((Owned.object_iff.mp hi).imp_right fun ⟨hold, hnew⟩ => ⟨hold, ?_⟩)
    simp only [Store.extent, Store.size_newInstance] at hnew
    exact Nat.lt_of_le_of_ne (Nat.le_of_lt_succ hnew) hne
  refine
    { grows := h.grows.trans hgrows
      ids_le := h.ids_le
      enclosing := fun hf heq => (h.enclosing (hf.frame_congr rfl) heq).mono hextent
      bound := fun hf heq => (h.bound (hf.frame_congr rfl) heq).mono hextent
      field := fun {i x v} hi heq => ?_
      cls := fun {i d} hi heq => ?_
      outer := h.outer
      frame := h.frame
      object := fun {i} hold hi => ?_ }
  · rw [Store.field?_newInstance] at heq
    split_ifs at heq with hi'
    exact (h.field (hobject hi hi') heq).mono hextent
  · rw [Store.class?_newInstance] at heq
    split_ifs at heq with hi'
    · cases heq
      exact hc.mono hextent
    · exact (h.cls (hobject hi hi') heq).mono hextent
  · have hlt := Nat.lt_of_lt_of_le hold h.grows.instances
    rw [← h.object hold hi]
    exact Array.getElem?_push_lt hlt ▸ (Array.getElem?_eq_getElem hlt).symm

/-- A field of an instance that is owned is set to what is owned. -/
theorem setField (h : Confines O st ids) {i : InstanceId} {v : Value} (name : String)
    (hi : Owned O (st.extent ids) (.value (.object i)))
    (hv : Owned O (st.extent ids) (.value v)) : Confines O (st.setField i name v) ids := by
  have hgrows := Store.grows_setField st i name v
  have hextent : (st.setField i name v).extent ids = st.extent ids := by
    simp only [Store.extent, Store.size_setField]
    rfl
  refine
    { grows := h.grows.trans hgrows
      ids_le := h.ids_le
      enclosing := fun hf heq => hextent ▸ h.enclosing (hextent ▸ hf) heq
      bound := fun hf heq => hextent ▸ h.bound (hextent ▸ hf) heq
      field := fun {j x w} hj heq => ?_
      cls := fun {j c} hj heq => ?_
      outer := h.outer
      frame := h.frame
      object := fun {j} hold hj => ?_ }
  · rw [hextent] at hj ⊢
    rw [Store.field?_setField] at heq
    split_ifs at heq with hchanged
    · cases heq
      exact hv
    · exact h.field hj heq
  · rw [Store.class?_setField] at heq
    rw [hextent] at hj ⊢
    exact h.cls hj heq
  · have hne : i ≠ j := fun heq => hj (heq ▸ reaches_object hi (heq ▸ hold))
    rw [← h.object hold hj]
    show (st.instances.modify i _)[j]? = _
    rw [Array.getElem?_modify, if_neg hne]

/-- A new identity is given. -/
theorem newId (h : Confines O st ids) {ids' : Nat} (hids : ids ≤ ids') : Confines O st ids' := by
  have hextent : st.extent ids ≤ st.extent ids' := (Store.Grows.refl st).extent_le hids
  exact
    { grows := h.grows
      ids_le := Nat.le_trans h.ids_le hids
      enclosing := fun hf heq => (h.enclosing (hf.frame_congr rfl) heq).mono hextent
      bound := fun hf heq => (h.bound (hf.frame_congr rfl) heq).mono hextent
      field := fun hi heq => (h.field (hi.object_congr rfl) heq).mono hextent
      cls := fun hi heq => (h.cls (hi.object_congr rfl) heq).mono hextent
      outer := h.outer
      frame := h.frame
      object := h.object }

end Confines

end Run

end Scriptlet
