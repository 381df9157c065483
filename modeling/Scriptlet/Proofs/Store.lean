import Scriptlet.Store
import Mathlib.Tactic.Common

/-!
# Frames and their bindings

What the operations of the store do, seen through `get?` and `enclosing?`, and the order in which
stores follow each other in a run: frames are only added, links stay, what is bound stays bound, and
`this`, `super` and the classes of instances never change (`Store.Later`).

Results:
* `Store.get?_define`, `Store.get?_newFrame`: one equation for each change of a frame.
* `Store.later_define`, `Store.later_newFrame`, `Store.later_newInstance`, `Store.later_setField`:
  every change leads to a later store.
* `Bindings.get?_ofArguments`: what a call binds.
* `Store.owner?_eq`: where links lead to earlier frames, a name is looked for along all of them.
-/

namespace Scriptlet

/-! ## Bindings -/

namespace Bindings

theorem get?_nil (x : String) : get? [] x = none := rfl

theorem get?_cons (y : String) (v : Value) (bs : Bindings) (x : String) :
    get? ((y, v) :: bs) x = if x = y then some v else get? bs x := by
  unfold get?
  by_cases hx : x = y
  · simp [hx]
  · have hne : (x == y) = false := beq_eq_false_iff_ne.mpr hx
    simp [List.lookup_cons, hne, hx]

theorem get?_set (name : String) (value : Value) (bs : Bindings) (x : String) :
    (set name value bs).get? x = if x = name then some value else bs.get? x := by
  induction bs with
  | nil => rw [set, get?_cons, get?_nil]
  | cons b bs ih =>
    obtain ⟨y, v⟩ := b
    unfold set
    by_cases hy : y = name
    · rw [if_pos hy, get?_cons, get?_cons, hy]
      split_ifs <;> rfl
    · rw [if_neg hy, get?_cons, get?_cons, ih]
      by_cases hx : x = name
      · have hxy : x ≠ y := fun e => hy (e ▸ hx)
        rw [if_neg hxy, if_pos hx]
        exact (if_pos hx).symm
      · simp [hx]

/-- The bindings made from the pairs, over those before. -/
theorem get?_foldl_set (pairs : List (Token × Value)) (bs : Bindings) (x : String) :
    (∀ v, (pairs.foldl (fun bs (param, arg) => set param.lexeme arg bs) bs).get? x = some v →
      (∃ p ∈ pairs, p.1.lexeme = x ∧ p.2 = v) ∨ bs.get? x = some v) ∧
    (((∃ p ∈ pairs, p.1.lexeme = x) ∨ (bs.get? x).isSome = true) →
      ((pairs.foldl (fun bs (param, arg) => set param.lexeme arg bs) bs).get? x).isSome =
        true) := by
  induction pairs generalizing bs with
  | nil =>
    refine ⟨fun v h => .inr h, ?_⟩
    rintro (⟨p, hp, -⟩ | h)
    · cases hp
    · exact h
  | cons p ps ih =>
    obtain ⟨param, arg⟩ := p
    obtain ⟨hvalue, hsome⟩ := ih (set param.lexeme arg bs)
    refine ⟨fun v h => ?_, fun h => hsome ?_⟩
    · rcases hvalue v h with ⟨q, hq, hqx, hqv⟩ | h
      · exact .inl ⟨q, List.mem_cons_of_mem _ hq, hqx, hqv⟩
      · rw [get?_set] at h
        split_ifs at h with hx
        · exact .inl ⟨(param, arg), List.mem_cons_self, hx.symm, Option.some.inj h⟩
        · exact .inr h
    · rw [get?_set]
      rcases h with ⟨q, hq, hqx⟩ | h
      · rcases List.mem_cons.mp hq with rfl | hq
        · right
          rw [if_pos hqx.symm]
          rfl
        · exact .inl ⟨q, hq, hqx⟩
      · right
        split_ifs
        · rfl
        · exact h

/-- **What a call binds**: parameters to arguments, every parameter if the arguments suffice. -/
theorem get?_ofArguments (params : List Token) (args : List Value) (x : String) :
    (∀ v, (ofArguments params args).get? x = some v →
      x ∈ params.map (·.lexeme) ∧ v ∈ args) ∧
    (args.length = params.length → x ∈ params.map (·.lexeme) →
      ((ofArguments params args).get? x).isSome = true) := by
  obtain ⟨hvalue, hsome⟩ := get?_foldl_set (params.zip args) [] x
  constructor
  · intro v h
    rcases hvalue v h with ⟨⟨param, arg⟩, hp, rfl, rfl⟩ | h
    · exact ⟨List.mem_map_of_mem (List.of_mem_zip hp).1, (List.of_mem_zip hp).2⟩
    · cases h
  · intro hlen hx
    obtain ⟨param, hparam, rfl⟩ := List.mem_map.mp hx
    refine hsome (.inl ?_)
    have hparams : (params.zip args).map Prod.fst = params :=
      List.map_fst_zip (by omega)
    rw [← hparams] at hparam
    obtain ⟨p, hp, hpx⟩ := List.mem_map.mp hparam
    exact ⟨p, hp, by rw [hpx]⟩

end Bindings

/-! ## Frames -/

namespace Store

theorem get?_define (f : FrameId) (name : String) (value : Value) (s : Store) (g : FrameId)
    (x : String) :
    (s.define f name value).get? g x =
      if g = f ∧ x = name ∧ f < s.frames.size then some value else s.get? g x := by
  unfold get? define
  simp only [Array.getElem?_modify]
  by_cases hg : f = g
  · subst hg
    cases hf : s.frames[f]? with
    | none =>
      have : ¬ f < s.frames.size := by simpa using hf
      simp [this]
    | some frame =>
      have hlt : f < s.frames.size := (Array.getElem?_eq_some_iff.mp hf).1
      simp [Bindings.get?_set, hlt]
  · rw [if_neg hg, if_neg fun h => hg h.1.symm]

@[simp]
theorem enclosing?_define (f : FrameId) (name : String) (value : Value) (s : Store) (g : FrameId) :
    (s.define f name value).enclosing? g = s.enclosing? g := by
  unfold enclosing? define
  simp only [Array.getElem?_modify]
  split_ifs with hg
  · subst hg
    cases s.frames[f]? <;> rfl
  · rfl

@[simp]
theorem size_define (f : FrameId) (name : String) (value : Value) (s : Store) :
    (s.define f name value).frames.size = s.frames.size := by
  simp [define]

theorem get?_newFrame (bs : Bindings) (e : Option FrameId) (s : Store) (g : FrameId) (x : String) :
    (s.newFrame bs e).2.get? g x =
      if g = s.frames.size then bs.get? x else s.get? g x := by
  unfold get? newFrame
  simp only [Array.getElem?_push]
  split_ifs <;> rfl

theorem enclosing?_newFrame (bs : Bindings) (e : Option FrameId) (s : Store) (g : FrameId) :
    (s.newFrame bs e).2.enclosing? g = if g = s.frames.size then e else s.enclosing? g := by
  unfold enclosing? newFrame
  simp only [Array.getElem?_push]
  split_ifs <;> rfl

@[simp]
theorem size_newFrame (bs : Bindings) (e : Option FrameId) (s : Store) :
    (s.newFrame bs e).2.frames.size = s.frames.size + 1 := by
  simp [newFrame]

theorem get?_lt {s : Store} {f : FrameId} {x : String} (h : (s.get? f x).isSome = true) :
    f < s.frames.size := by
  unfold get? at h
  cases hf : s.frames[f]? with
  | none => rw [hf] at h; cases h
  | some frame => exact (Array.getElem?_eq_some_iff.mp hf).1

theorem enclosing?_lt {s : Store} {f g : FrameId} (h : s.enclosing? f = some g) :
    f < s.frames.size := by
  unfold enclosing? at h
  cases hf : s.frames[f]? with
  | none => rw [hf] at h; cases h
  | some frame => exact (Array.getElem?_eq_some_iff.mp hf).1

theorem ancestor_succ {s : Store} {f g : FrameId} (h : s.enclosing? f = some g) (d : Nat) :
    s.ancestor f (d + 1) = s.ancestor g d := by
  rw [ancestor, h]

theorem ancestor_add_one {s : Store} {f g e : FrameId} {d : Nat} (h : s.ancestor f d = some g)
    (he : s.enclosing? g = some e) : s.ancestor f (d + 1) = some e := by
  induction d generalizing f with
  | zero =>
    cases h
    rw [ancestor_succ he]
    rfl
  | succ d ih =>
    cases hlink : s.enclosing? f with
    | none => simp [ancestor, hlink] at h
    | some outer =>
      rw [ancestor_succ hlink] at h
      rw [ancestor_succ hlink]
      exact ih h

/-! ## Later stores -/

/-- Frames have been added and names bound, and nothing else has happened to the frames; what a keyword
is bound to stays, and instances stay what they are instances of. -/
structure Later (s s' : Store) : Prop where
  size : s.frames.size ≤ s'.frames.size
  enclosing (f g : FrameId) (h : s.enclosing? f = some g) : s'.enclosing? f = some g
  bound (f : FrameId) (x : String) (h : (s.get? f x).isSome = true) : (s'.get? f x).isSome = true
  keyword (f : FrameId) (x : String) (v : Value) (hx : x = "this" ∨ x = "super")
    (h : s.get? f x = some v) : s'.get? f x = some v
  cls (i : InstanceId) (c : Class) (h : s.class? i = some c) : s'.class? i = some c

theorem Later.refl (s : Store) : s.Later s :=
  ⟨Nat.le_refl _, fun _ _ h => h, fun _ _ h => h, fun _ _ _ _ h => h, fun _ _ h => h⟩

theorem Later.trans {s t u : Store} (h : s.Later t) (h' : t.Later u) : s.Later u :=
  ⟨Nat.le_trans h.size h'.size, fun f g hf => h'.enclosing f g (h.enclosing f g hf),
    fun f x hx => h'.bound f x (h.bound f x hx),
    fun f x v hx hv => h'.keyword f x v hx (h.keyword f x v hx hv),
    fun i c hc => h'.cls i c (h.cls i c hc)⟩

theorem Later.ancestor {s s' : Store} (h : s.Later s') {f g : FrameId} {d : Nat}
    (hg : s.ancestor f d = some g) : s'.ancestor f d = some g := by
  induction d generalizing f with
  | zero => exact hg
  | succ d ih =>
    cases hlink : s.enclosing? f with
    | none => simp [Store.ancestor, hlink] at hg
    | some e =>
      rw [ancestor_succ hlink] at hg
      rw [ancestor_succ (h.enclosing f e hlink)]
      exact ih hg

/-- A name is bound that is no keyword. -/
theorem later_define (f : FrameId) {name : String} (value : Value) (s : Store)
    (hthis : name ≠ "this") (hsuper : name ≠ "super") : s.Later (s.define f name value) := by
  refine ⟨Nat.le_of_eq (size_define _ _ _ _).symm, fun g e h => by rwa [enclosing?_define],
    fun g x h => ?_, fun g x v hx h => ?_, fun _ _ h => h⟩
  · rw [get?_define]
    split_ifs
    · rfl
    · exact h
  · rw [get?_define, if_neg, h]
    rintro ⟨-, rfl, -⟩
    exact hx.elim hthis hsuper

theorem later_newFrame (bs : Bindings) (e : Option FrameId) (s : Store) :
    s.Later (s.newFrame bs e).2 := by
  refine ⟨by simp, fun f g h => ?_, fun f x h => ?_, fun f x v _ h => ?_, fun _ _ h => h⟩
  · have := enclosing?_lt h
    rw [enclosing?_newFrame, if_neg (Nat.ne_of_lt this), h]
  · have := get?_lt h
    rw [get?_newFrame, if_neg (Nat.ne_of_lt this)]
    exact h
  · have := get?_lt (Option.isSome_of_eq_some h)
    rw [get?_newFrame, if_neg (Nat.ne_of_lt this), h]

/-- A change of instances only. -/
theorem later_instances {s s' : Store} (h : s'.frames = s.frames)
    (hclass : ∀ i c, s.class? i = some c → s'.class? i = some c) : s.Later s' := by
  have hget (f : FrameId) (x : String) : s'.get? f x = s.get? f x := by
    unfold get?
    rw [h]
  refine ⟨Nat.le_of_eq (by rw [h]), fun f g hf => ?_, fun f x hx => by rwa [hget],
    fun f x v _ hv => by rwa [hget], hclass⟩
  unfold enclosing? at hf ⊢
  rwa [h]

theorem class?_newInstance (c : Class) (s : Store) (i : InstanceId) :
    (s.newInstance c).2.class? i = if i = s.instances.size then some c else s.class? i := by
  unfold class? newInstance
  simp only [Array.getElem?_push]
  split_ifs <;> rfl

@[simp]
theorem class?_setField (i : InstanceId) (name : String) (value : Value) (s : Store)
    (j : InstanceId) : (s.setField i name value).class? j = s.class? j := by
  unfold class? setField
  simp only [Array.getElem?_modify]
  split_ifs with hij
  · subst hij
    cases s.instances[i]? <;> rfl
  · rfl

theorem field?_newInstance (c : Class) (s : Store) (i : InstanceId) (x : String) :
    (s.newInstance c).2.field? i x = if i = s.instances.size then none else s.field? i x := by
  unfold field? newInstance
  simp only [Array.getElem?_push]
  split_ifs <;> rfl

theorem field?_setField (i : InstanceId) (name : String) (value : Value) (s : Store)
    (j : InstanceId) (x : String) :
    (s.setField i name value).field? j x =
      if j = i ∧ x = name ∧ i < s.instances.size then some value else s.field? j x := by
  unfold field? setField
  simp only [Array.getElem?_modify]
  by_cases hj : i = j
  · subst hj
    cases hi : s.instances[i]? with
    | none =>
      have : ¬ i < s.instances.size := by simpa using hi
      simp [this]
    | some object =>
      have hlt : i < s.instances.size := (Array.getElem?_eq_some_iff.mp hi).1
      simp [Bindings.get?_set, hlt]
  · rw [if_neg hj, if_neg fun h => hj h.1.symm]

theorem later_newInstance (c : Class) (s : Store) : s.Later (s.newInstance c).2 := by
  refine later_instances rfl fun i d hd => ?_
  have hlt : i < s.instances.size := by
    obtain ⟨object, hobject, -⟩ := Option.map_eq_some_iff.mp hd
    exact (Array.getElem?_eq_some_iff.mp hobject).1
  rw [class?_newInstance, if_neg (Nat.ne_of_lt hlt), hd]

theorem later_setField (i : InstanceId) (name : String) (value : Value) (s : Store) :
    s.Later (s.setField i name value) :=
  later_instances rfl fun j d hd => by rwa [class?_setField]

/-! ## Owners -/

theorem ownerWithin_bound {s : Store} {x : String} {n : Nat} {f g : FrameId}
    (h : s.ownerWithin x n f = some g) : (s.get? g x).isSome = true := by
  induction n generalizing f with
  | zero =>
    unfold ownerWithin at h
    split_ifs at h with hf
    cases h
    exact hf
  | succ n ih =>
    unfold ownerWithin at h
    split_ifs at h with hf
    · cases h
      exact hf
    · cases he : s.enclosing? f with
      | none => rw [he] at h; cases h
      | some outer => rw [he] at h; exact ih h

theorem owner?_bound {s : Store} {x : String} {f g : FrameId} (h : s.owner? f x = some g) :
    (s.get? g x).isSome = true := ownerWithin_bound h

theorem owner?_self {s : Store} {x : String} {f : FrameId} (h : (s.get? f x).isSome = true) :
    s.owner? f x = some f := by
  unfold owner?
  cases f <;> simp [ownerWithin, h]

theorem lookup_bound {s : Store} {x : String} {f : FrameId} {v : Value}
    (h : s.lookup f x = some v) : ∃ g, s.get? g x = some v := by
  unfold lookup at h
  obtain ⟨g, -, hg⟩ := Option.bind_eq_some_iff.mp h
  exact ⟨g, hg⟩

section
variable {s : Store} (hlinks : ∀ f g, s.enclosing? f = some g → g < f)
include hlinks

/-- More steps than there are links do not find more. -/
theorem ownerWithin_succ {x : String} {n : Nat} {f : FrameId} (hf : f ≤ n) :
    s.ownerWithin x (n + 1) f = s.ownerWithin x n f := by
  induction n generalizing f with
  | zero =>
    have houtermost : s.enclosing? f = none := by
      refine Option.eq_none_iff_forall_ne_some.mpr fun g hg => ?_
      exact Nat.not_lt_zero g (Nat.lt_of_lt_of_le (hlinks f g hg) hf)
    rw [ownerWithin, ownerWithin, houtermost]
  | succ n ih =>
    rw [ownerWithin, ownerWithin]
    cases hg : s.enclosing? f with
    | none => rfl
    | some g =>
      dsimp only
      rw [ih (Nat.le_of_lt_succ (Nat.lt_of_lt_of_le (hlinks f g hg) hf))]

theorem ownerWithin_eq_owner? {x : String} {n : Nat} {f : FrameId} (hf : f ≤ n) :
    s.ownerWithin x n f = s.owner? f x := by
  induction hf with
  | refl => rfl
  | step hf ih => rw [ownerWithin_succ hlinks hf, ih]

/-- **Looking for a name goes from frame to frame along the links.** -/
theorem owner?_eq (f : FrameId) (x : String) :
    s.owner? f x =
      if (s.get? f x).isSome then some f else (s.enclosing? f).bind fun g => s.owner? g x := by
  rw [← ownerWithin_eq_owner? hlinks (Nat.le_succ f), ownerWithin]
  cases hg : s.enclosing? f with
  | none => rfl
  | some g =>
    dsimp only
    rw [ownerWithin_eq_owner? hlinks (Nat.le_of_lt (hlinks f g hg))]
    rfl

end

end Store

end Scriptlet
