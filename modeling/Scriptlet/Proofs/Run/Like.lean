import Scriptlet.Proofs.Run.Alike

/-!
# Machines that differ in lines and identities only

Functions and classes are values that carry trees, so two runs of programs that are alike have values
that are alike: the same frames and instances, functions and classes with the same `id` and trees that
are alike. Stores are compared by what can be seen of them. A scoping by distances only looks up the
identity of a reference, so it does the same on both sides if references that answer each other have the
same distance (`SameDistances`).

Results:
* `Agrees`, `Agrees.seq`: computations that do the same on machines that are alike, and sequencing.
* `agrees_readRef`, `agrees_property`, `agrees_declareClass`, …: one lemma for each operation.
-/

namespace Scriptlet

open List (Forall₂)

/-! ## Values -/

structure Function.Like (P : Pairing) (f f' : Function) : Prop where
  id : f.id = f'.id
  decl : f.decl.Like P f'.decl
  frame : f.frame = f'.frame

instance (P : Pairing) : Faithful (Function.Like P) :=
  ⟨fun h => ⟨h.id, h.decl.name.lexeme, h.decl.params.length_eq⟩⟩

abbrev Class.Like (P : Pairing) : Class → Class → Prop := Class.Alike (Function.Like P)

/-- **Values that are the same but for the trees they carry**, which are alike. -/
abbrev Value.Like (P : Pairing) : Value → Value → Prop :=
  Value.Alike (Function.Like P) (Function.Like P)

/-! ## Stores -/

section
variable {P : Pairing}

/-- **Stores in which the same can be seen**, up to lines and identities. -/
structure Store.Like (P : Pairing) (s s' : Store) : Prop where
  frames : s.frames.size = s'.frames.size
  enclosing (f : FrameId) : s.enclosing? f = s'.enclosing? f
  get (f : FrameId) (x : String) : Option.Rel (Value.Like P) (s.get? f x) (s'.get? f x)
  instances : s.Instances (Function.Like P) (Function.Like P) s'

namespace Store.Like

variable {s s' : Store}

theorem define (h : s.Like P s') (f : FrameId) (x : String) {v v' : Value} (hv : v.Like P v') :
    (s.define f x v).Like P (s'.define f x v') := by
  refine ⟨?_, fun g => ?_, fun g y => ?_, ⟨h.instances.size, h.instances.cls, h.instances.field⟩⟩
  · rw [size_define, size_define, h.frames]
  · rw [enclosing?_define, enclosing?_define, h.enclosing]
  · rw [get?_define, get?_define, h.frames]
    split_ifs
    · exact .some hv
    · exact h.get g y

theorem newFrame (h : s.Like P s') {bs bs' : Bindings} (hbs : bs.Alike (Value.Like P) bs')
    (e : Option FrameId) : (s.newFrame bs e).2.Like P (s'.newFrame bs' e).2 := by
  refine ⟨?_, fun g => ?_, fun g y => ?_, ⟨h.instances.size, h.instances.cls, h.instances.field⟩⟩
  · rw [size_newFrame, size_newFrame, h.frames]
  · rw [enclosing?_newFrame, enclosing?_newFrame, h.frames, h.enclosing]
  · rw [get?_newFrame, get?_newFrame, h.frames]
    split_ifs
    · exact hbs y
    · exact h.get g y

theorem newInstance (h : s.Like P s') {c c' : Class} (hc : c.Like P c') :
    (s.newInstance c).2.Like P (s'.newInstance c').2 :=
  ⟨h.frames, h.enclosing, h.get, h.instances.newInstance hc⟩

theorem setField (h : s.Like P s') (i : InstanceId) (x : String) {v v' : Value}
    (hv : v.Like P v') : (s.setField i x v).Like P (s'.setField i x v') :=
  ⟨h.frames, h.enclosing, h.get, h.instances.setField i x hv⟩

theorem owner? (h : s.Like P s') (f : FrameId) (x : String) : s.owner? f x = s'.owner? f x := by
  have hwithin (n : Nat) (f : FrameId) : s.ownerWithin x n f = s'.ownerWithin x n f := by
    induction n generalizing f with
    | zero => rw [ownerWithin, ownerWithin, isSome_of_rel (h.get f x)]
    | succ n ih =>
      rw [ownerWithin, ownerWithin, isSome_of_rel (h.get f x), h.enclosing]
      cases s'.enclosing? f with
      | none => rfl
      | some outer =>
        dsimp only
        rw [ih]
  exact hwithin f f

theorem ancestor (h : s.Like P s') (f : FrameId) (d : Nat) : s.ancestor f d = s'.ancestor f d := by
  induction d generalizing f with
  | zero => rfl
  | succ d ih =>
    rw [Store.ancestor, Store.ancestor, h.enclosing]
    cases s'.enclosing? f with
    | none => rfl
    | some outer => exact ih outer

theorem lookup (h : s.Like P s') (f : FrameId) (x : String) :
    Option.Rel (Value.Like P) (s.lookup f x) (s'.lookup f x) := by
  unfold Store.lookup
  rw [h.owner?]
  cases s'.owner? f x with
  | none => exact .none
  | some owner => exact h.get owner x

theorem getAt (h : s.Like P s') (f : FrameId) (d : Nat) (x : String) :
    Option.Rel (Value.Like P) (s.getAt f d x) (s'.getAt f d x) := by
  unfold Store.getAt
  rw [h.ancestor]
  cases s'.ancestor f d with
  | none => exact .none
  | some frame => exact h.get frame x

end Store.Like

/-- Machines that differ in the lines and identities of the trees in their store. -/
structure Machine.Like (P : Pairing) (m m' : Machine) : Prop where
  store : m.store.Like P m'.store
  current : m.current = m'.current
  nextId : m.nextId = m'.nextId
  output : m.output = m'.output
  capacity : m.capacity = m'.capacity
  clock : m.clock = m'.clock

end

/-! ## Wider pairings -/

section
variable {P Q : Pairing} (hPQ : P.Within Q)

include hPQ

theorem Function.Like.mono {f f' : Function} (h : f.Like P f') : f.Like Q f' :=
  ⟨h.id, h.decl.mono hPQ, h.frame⟩

theorem Store.Like.mono {s s' : Store} (h : s.Like P s') : s.Like Q s' := by
  have hmono (f f' : Function) (hf : f.Like P f') : f.Like Q f' := hf.mono hPQ
  exact ⟨h.frames, h.enclosing,
    fun f x => relOption_imp (fun _ _ hv => hv.mono hmono hmono) (h.get f x),
    h.instances.mono hmono hmono⟩

theorem Machine.Like.mono {m m' : Machine} (h : m.Like P m') : m.Like Q m' :=
  ⟨h.store.mono hPQ, h.current, h.nextId, h.output, h.capacity, h.clock⟩

end

/-- A change of the store. -/
theorem Machine.Like.mapStore {P : Pairing} {m m' : Machine} (hm : m.Like P m')
    {f g : Store → Store} (h : (f m.store).Like P (g m'.store)) :
    (m.mapStore f).Like P (m'.mapStore g) :=
  ⟨h, hm.current, hm.nextId, hm.output, hm.capacity, hm.clock⟩

/-- Machines that have not run yet are alike. -/
theorem Machine.like_initial (P : Pairing) (clock : Number) (capacity : Option Nat) :
    (Machine.initial clock capacity).Like P (.initial clock capacity) := by
  refine ⟨⟨rfl, fun _ => rfl, fun f x => ?_, ⟨rfl, fun _ => .none, fun _ _ => .none⟩⟩,
    rfl, rfl, rfl, rfl, rfl⟩
  cases f with
  | zero => exact Bindings.alike_initial _ _ x
  | succ f => exact .none

/-! ## Computations -/

/-- Results of the same sort, with machines that are alike. -/
inductive Result.Like (P : Pairing) {α β : Type} (V : α → β → Prop) : Result α → Result β → Prop
  | ok {a b m m'} (ha : V a b) (hm : m.Like P m') : Like P V (.ok a m) (.ok b m')
  | fault {f f' m m'} (hf : f.Like P.line f') (hm : m.Like P m') :
    Like P V (.fault f m) (.fault f' m')
  | exhausted : Like P V .exhausted .exhausted

namespace Run

open Exec

/-- **Two computations do the same on machines that are alike.** -/
def Agrees (P : Pairing) {α β : Type} (V : α → β → Prop) (x : Exec α) (y : Exec β) : Prop :=
  ∀ ⦃m m' : Machine⦄, m.Like P m' → (x m).Like P V (y m')

section
variable {P : Pairing} {α β γ δ : Type} {V : α → β → Prop} {W : γ → δ → Prop}

theorem Agrees.seq {x : Exec α} {y : Exec β} {f : α → Exec γ} {g : β → Exec δ}
    (h : Agrees P V x y) (hf : ∀ a b, V a b → Agrees P W (f a) (g b)) :
    Agrees P W (x >>= f) (y >>= g) := by
  intro m m' hm
  have hr := h hm
  show Result.Like P W (Exec.bind x f m) (Exec.bind y g m')
  unfold Exec.bind
  generalize x m = r at hr ⊢
  generalize y m' = r' at hr ⊢
  cases hr with
  | ok ha hm => exact hf _ _ ha hm
  | fault hf hm => exact .fault hf hm
  | exhausted => exact .exhausted

theorem agrees_pure {a : α} {b : β} (h : V a b) : Agrees P V (pure a) (pure b) :=
  fun _ _ hm => .ok h hm

theorem Agrees.map {x : Exec α} {y : Exec β} {f : α → γ} {g : β → δ} (h : Agrees P V x y)
    (hf : ∀ a b, V a b → W (f a) (g b)) : Agrees P W (f <$> x) (g <$> y) :=
  h.seq fun a b hab => agrees_pure (hf a b hab)

theorem agrees_exhausted : Agrees P V Exec.exhausted Exec.exhausted := fun _ _ _ => .exhausted

theorem agrees_raise {site site' : Token} (h : site.Like P.line site') (cause : Cause) :
    Agrees P V (raise site cause) (raise site' cause) := fun _ _ hm => .fault ⟨h, rfl⟩ hm

theorem agrees_ofOperator {x x' : Except Fault Value}
    (h : OperatorLike (Function.Like P) (Function.Like P) P.line x x') :
    Agrees P (Value.Like P) (ofOperator x) (ofOperator x') := by
  intro m m' hm
  cases h with
  | ok hv => exact .ok hv hm
  | error hf => exact .fault hf hm

theorem agrees_ofOption {o : Option α} {o' : Option β} {f f' : Fault} (h : Option.Rel V o o')
    (hf : f.Like P.line f') : Agrees P V (ofOption o f) (ofOption o' f') := by
  intro m m' hm
  cases h with
  | none => exact .fault hf hm
  | some hv => exact .ok hv hm

theorem Agrees.inFrame {x : Exec α} {y : Exec β} (h : Agrees P V x y) (frame : FrameId) :
    Agrees P V (inFrame frame x) (inFrame frame y) := by
  intro m m' hm
  have hr := @h { m with current := frame } { m' with current := frame }
    ⟨hm.store, rfl, hm.nextId, hm.output, hm.capacity, hm.clock⟩
  have hback {m₁ m₁' : Machine} (hm₁ : m₁.Like P m₁') :
      Machine.Like P { m₁ with current := m.current } { m₁' with current := m'.current } :=
    ⟨hm₁.store, hm.current, hm₁.nextId, hm₁.output, hm₁.capacity, hm₁.clock⟩
  unfold Exec.inFrame
  dsimp only
  generalize x { m with current := frame } = r at hr ⊢
  generalize y { m' with current := frame } = r' at hr ⊢
  cases hr with
  | ok ha hm₁ => exact .ok ha (hback hm₁)
  | fault hf hm₁ => exact .fault hf (hback hm₁)
  | exhausted => exact .exhausted

end

section
variable {P : Pairing}

/-- The faults of names that are not there. -/
theorem undefinedVariable_like {t t' : Token} (h : t.Like P.line t') :
    (Fault.undefinedVariable t).Like P.line (.undefinedVariable t') :=
  ⟨h, congrArg Cause.undefinedVariable h.lexeme⟩

theorem undefinedProperty_like {t t' : Token} (h : t.Like P.line t') :
    (Fault.undefinedProperty t).Like P.line (.undefinedProperty t') :=
  ⟨h, congrArg Cause.undefinedProperty h.lexeme⟩

theorem agrees_currentFrame : Agrees P Eq currentFrame currentFrame :=
  fun _ _ hm => .ok hm.current hm

theorem agrees_newFrame {bs bs' : Bindings} (hbs : bs.Alike (Value.Like P) bs') {f f' : FrameId}
    (hf : f = f') : Agrees P Eq (newFrame bs f) (newFrame bs' f') := by
  intro m m' hm
  subst hf
  exact .ok hm.store.frames ⟨hm.store.newFrame hbs _, hm.current, hm.nextId, hm.output, hm.capacity,
    hm.clock⟩

theorem agrees_define {x x' : String} (hx : x = x') {v v' : Value} (hv : v.Like P v') :
    Agrees P Eq (define x v) (define x' v') := by
  intro m m' hm
  subst hx
  refine .ok rfl (hm.mapStore ?_)
  rw [hm.current]
  exact hm.store.define _ _ hv

theorem agrees_assignIn (frame : Option FrameId) {t t' : Token} (ht : t.Like P.line t')
    {v v' : Value} (hv : v.Like P v') :
    Agrees P Eq (assignIn frame t v) (assignIn frame t' v') := by
  intro m m' hm
  cases frame with
  | none => exact .fault (undefinedVariable_like ht) hm
  | some frame =>
    unfold assignIn
    rw [ht.lexeme]
    exact .ok rfl (hm.mapStore (hm.store.define _ _ hv))

theorem agrees_assignFrom {f f' : FrameId} (hf : f = f') {t t' : Token} (ht : t.Like P.line t')
    {v v' : Value} (hv : v.Like P v') :
    Agrees P Eq (assignFrom f t v) (assignFrom f' t' v') := by
  intro m m' hm
  subst hf
  unfold assignFrom
  rw [hm.store.owner?, ht.lexeme]
  exact agrees_assignIn _ ht hv hm

/-! ## References -/

/-- References that answer each other have the same distance. -/
def SameDistances (P : Pairing) (D D' : Distances) : Prop :=
  ∀ r r', P.ref r r' → D[r]? = D'[r']?

variable {D D' : Distances} (hD : SameDistances P D D')

include hD

theorem agrees_readRef {r r' : RefId} (hr : P.ref r r') {t t' : Token} (ht : t.Like P.line t') :
    Agrees P (Value.Like P) (readRef (.byDistance D) r t) (readRef (.byDistance D') r' t') := by
  intro m m' hm
  unfold readRef
  dsimp only
  rw [hD r r' hr, hm.current, ht.lexeme]
  cases D'[r']? with
  | some d => exact agrees_ofOption (hm.store.getAt _ _ _) (undefinedVariable_like ht) hm
  | none => exact agrees_ofOption (hm.store.lookup _ _) (undefinedVariable_like ht) hm

theorem agrees_writeRef {r r' : RefId} (hr : P.ref r r') {t t' : Token} (ht : t.Like P.line t')
    {v v' : Value} (hv : v.Like P v') :
    Agrees P Eq (writeRef (.byDistance D) r t v) (writeRef (.byDistance D') r' t' v') := by
  intro m m' hm
  unfold writeRef
  dsimp only
  rw [hD r r' hr, hm.current]
  cases D'[r']? with
  | some d =>
    dsimp only
    rw [hm.store.ancestor]
    exact agrees_assignIn _ ht hv hm
  | none => exact agrees_assignFrom rfl ht hv hm

theorem agrees_readSuper {r r' : RefId} (hr : P.ref r r') {t t' : Token} (ht : t.Like P.line t') :
    Agrees P (Value.Like P) (readSuper (.byDistance D) r t) (readSuper (.byDistance D') r' t') := by
  intro m m' hm
  unfold readSuper
  dsimp only
  rw [hD r r' hr, hm.current, ht.lexeme]
  cases D'[r']? with
  | some d => exact agrees_ofOption (hm.store.getAt _ _ _) (undefinedVariable_like ht) hm
  | none => exact .fault ⟨ht, rfl⟩ hm

theorem agrees_readReceiver {r r' : RefId} (hr : P.ref r r') {t t' : Token}
    (ht : t.Like P.line t') :
    Agrees P (Value.Like P) (readReceiver (.byDistance D) r t)
      (readReceiver (.byDistance D') r' t') := by
  have hthis : (thisToken t).Like P.line (thisToken t') := ⟨rfl, rfl, ht.line⟩
  intro m m' hm
  unfold readReceiver
  dsimp only
  rw [hD r r' hr, hm.current, hthis.lexeme]
  cases D'[r']? with
  | some d => exact agrees_ofOption (hm.store.getAt _ _ _) (undefinedVariable_like hthis) hm
  | none => exact .fault ⟨ht, rfl⟩ hm

omit hD

/-! ## Functions, classes and instances -/

theorem agrees_freshId : Agrees P Eq freshId freshId := fun _ _ hm =>
  .ok hm.nextId ⟨hm.store, hm.current, congrArg (· + 1) hm.nextId, hm.output, hm.capacity, hm.clock⟩

theorem agrees_newFunction {d d' : FunctionDecl} (hd : d.Like P d') {f f' : FrameId}
    (hf : f = f') : Agrees P (Function.Like P) (newFunction d f) (newFunction d' f') :=
  agrees_freshId.seq fun _ _ hid => agrees_pure ⟨hid, hd, hf⟩

theorem agrees_newMethods {ds ds' : List FunctionDecl}
    (hds : Forall₂ (FunctionDecl.Like P) ds ds') {f f' : FrameId} (hf : f = f')
    {made made' : List Function} (hmade : Forall₂ (Function.Like P) made made') :
    Agrees P (Forall₂ (Function.Like P)) (newMethods f ds made) (newMethods f' ds' made') := by
  induction hds generalizing made made' with
  | nil => exact agrees_pure hmade
  | cons hd _ ih =>
    unfold newMethods
    exact (agrees_newFunction hd hf).seq fun _ _ hfn => ih (.cons hfn hmade)

theorem agrees_bindMethod {fn fn' : Function} (hfn : fn.Like P fn') (receiver : InstanceId) :
    Agrees P (Function.Like P) (bindMethod fn receiver) (bindMethod fn' receiver) :=
  (agrees_newFrame (.single _ (.object receiver)) hfn.frame).seq fun _ _ hframe =>
    agrees_newFunction hfn.decl hframe

theorem agrees_newInstance {c c' : Class} (hc : c.Like P c') :
    Agrees P Eq (newInstance c) (newInstance c') :=
  fun _ _ hm => .ok hm.store.instances.size
    ⟨hm.store.newInstance hc, hm.current, hm.nextId, hm.output, hm.capacity, hm.clock⟩

theorem agrees_setField (i : InstanceId) {x x' : String} (hx : x = x') {v v' : Value}
    (hv : v.Like P v') : Agrees P Eq (setField i x v) (setField i x' v') := by
  intro m m' hm
  subst hx
  exact .ok rfl (hm.mapStore (hm.store.setField i _ hv))

theorem agrees_instanceProperty (i : InstanceId) {t t' : Token} (ht : t.Like P.line t') :
    Agrees P (Value.Like P) (instanceProperty i t) (instanceProperty i t') := by
  intro m m' hm
  unfold instanceProperty
  rw [ht.lexeme]
  have hfield := hm.store.instances.field i t'.lexeme
  generalize m.store.field? i t'.lexeme = o at hfield ⊢
  generalize m'.store.field? i t'.lexeme = o' at hfield ⊢
  cases hfield with
  | some hv => exact .ok hv hm
  | none =>
    have hmethod := hm.store.instances.method i t'.lexeme
    dsimp only
    generalize (m.store.class? i).bind (Class.findMethod t'.lexeme) = o at hmethod ⊢
    generalize (m'.store.class? i).bind (Class.findMethod t'.lexeme) = o' at hmethod ⊢
    cases hmethod with
    | none => exact .fault (undefinedProperty_like ht) hm
    | some hfn => exact (agrees_bindMethod hfn i).map (fun _ _ hf => .function hf) hm

theorem agrees_property {v v' : Value} (hv : v.Like P v') {t t' : Token} (ht : t.Like P.line t') :
    Agrees P (Value.Like P) (property v t) (property v' t') := by
  cases hv with
  | object i => exact agrees_instanceProperty i ht
  | library l =>
    refine agrees_ofOption ?_ (undefinedProperty_like ht)
    rw [ht.lexeme]
    cases l.function? t'.lexeme with
    | none => exact .none
    | some f => exact .some (.native f)
  | _ => exact agrees_raise ht _

include hD in
theorem agrees_superMethod {r r' : RefId} (hr : P.ref r r') {t t' : Token} (ht : t.Like P.line t')
    {u u' : Token} (hu : u.Like P.line u') :
    Agrees P (Value.Like P) (superMethod (.byDistance D) r t u)
      (superMethod (.byDistance D') r' t' u') := by
  unfold superMethod
  refine (agrees_readSuper hD hr ht).seq fun v v' hv => ?_
  cases hv with
  | cls hc =>
    refine (agrees_readReceiver hD hr ht).seq fun v v' hv => ?_
    cases hv with
    | object i =>
      dsimp only
      rw [hu.lexeme]
      have hmethod := hc.findMethod u'.lexeme
      generalize Class.findMethod u'.lexeme _ = o at hmethod ⊢
      generalize Class.findMethod u'.lexeme _ = o' at hmethod ⊢
      cases hmethod with
      | none => exact agrees_raise hu _
      | some hfn => exact (agrees_bindMethod hfn i).map fun _ _ hf => .function hf
    | _ => exact agrees_raise ht _
  | _ => exact agrees_raise ht _

include hD in
theorem agrees_readParent {o o' : Option Superclass} (ho : Option.Rel (Superclass.Like P) o o') :
    Agrees P (Option.Rel (Class.Like P)) (readParent (.byDistance D) o)
      (readParent (.byDistance D') o') := by
  cases ho with
  | none => exact agrees_pure .none
  | some hparent =>
    refine (agrees_readRef hD hparent.ref hparent.name).seq fun v v' hv => ?_
    cases hv with
    | cls hc => exact agrees_pure (.some hc)
    | _ => exact agrees_raise hparent.name _

theorem agrees_methodFrame {c c' : Option Class} (hc : Option.Rel (Class.Like P) c c')
    {f f' : FrameId} (hf : f = f') : Agrees P Eq (methodFrame c f) (methodFrame c' f') := by
  cases hc with
  | none => exact agrees_pure hf
  | some hc => exact agrees_newFrame (.single _ (.cls hc)) hf

include hD in
theorem agrees_declareClass {d d' : ClassDecl} (hd : d.Like P d') :
    Agrees P Eq (declareClass (.byDistance D) d) (declareClass (.byDistance D') d') := by
  obtain ⟨hname, hsuperclass, -, hmethods⟩ := hd
  have hclass {c c' : Option Class} (hc : Option.Rel (Class.Like P) c c') {id id' : Nat}
      (hid : id = id') {x x' : String} (hx : x = x') {ms ms' : List Function}
      (hms : Forall₂ (Function.Like P) ms ms') :
      Class.Like P ⟨id, x, c, ms⟩ ⟨id', x', c', ms'⟩ := by
    subst hid hx
    cases hc with
    | none => exact .base hms
    | some hc => exact .derived hc hms
  rw [declareClass_eq, declareClass_eq]
  refine Agrees.seq (V := fun made made' => made.1 = made'.1 ∧ made.2.Like P made'.2) ?_
    fun made made' h => agrees_assignFrom h.1 hname (.cls h.2)
  refine (agrees_readParent hD hsuperclass).seq fun _ _ hc =>
    (agrees_define hname.lexeme .null).seq fun _ _ _ => agrees_currentFrame.seq fun _ _ hframe =>
      (agrees_methodFrame hc hframe).seq fun _ _ hinner =>
        (agrees_newMethods hmethods hinner .nil).seq fun _ _ hms =>
          agrees_freshId.seq fun _ _ hid => agrees_pure ⟨hframe, hclass hc hid hname.lexeme hms⟩

/-! ## Built-in functions -/

theorem agrees_writeLine (text : String) {t t' : Token} (ht : t.Like P.line t') :
    Agrees P Eq (writeLine text t) (writeLine text t') := by
  intro m m' hm
  unfold writeLine
  rw [hm.capacity, hm.output]
  cases m'.capacity with
  | none => exact .ok rfl ⟨hm.store, hm.current, hm.nextId, rfl, rfl, hm.clock⟩
  | some n =>
    dsimp only
    split_ifs
    · exact .fault ⟨ht, rfl⟩ hm
    · exact .ok rfl ⟨hm.store, hm.current, hm.nextId, rfl, rfl, hm.clock⟩

theorem agrees_callNative (f : Native) {args args' : List Value}
    (hargs : Forall₂ (Value.Like P) args args') {t t' : Token} (ht : t.Like P.line t') :
    Agrees P (Value.Like P) (callNative f args t) (callNative f args' t') := by
  intro m m' hm
  cases f with
  | log =>
    have htext : (args.head?.map m.store.text).getD "" = (args'.head?.map m'.store.text).getD "" := by
      cases hargs with
      | nil => rfl
      | cons hv _ => exact hm.store.instances.text hv
    unfold callNative
    dsimp only
    rw [htext]
    exact (agrees_writeLine _ ht).seq (fun _ _ _ => agrees_pure .null) hm
  | now =>
    unfold callNative
    dsimp only
    rw [hm.clock]
    exact .ok (.number _) hm

end

end Run

end Scriptlet
