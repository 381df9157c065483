import Scriptlet.Proofs.Run.Folding
import Scriptlet.Proofs.Run.Reading

/-!
# Operations of a run that reads turns

The second of two runs reads turns. Between operations that answer each other the folding grows: a
frame that both runs make stands for its counterpart, and the frame of a turn, which only the first one
makes, stands for the current frame of the second. So what two computations yield is compared by the
folding at their end, and what was known at their start is known there too.

Results:
* `Answers`, `Answers.seq`: computations that do the same by some folding, and sequencing.
* `Answers.turn`: **a block of the first run is a turn of the second.**
* `answers_readRef`, `answers_property`, `answers_declareClass`, …: one lemma for each operation.
-/

namespace Scriptlet

open List (Forall₂)
open Scope

/-- The frame stands for the second one, with these flags. -/
abbrev Stands (fl : List Bool) (Φ : Folding) (f f' : FrameId) : Prop := Φ[f]? = some (f', fl)

/-- **Machines of two runs, the second of which reads turns.** The current frames answer each other. -/
structure Machine.Folds (R : Reading) (G : Guide) (Φ : Folding) (fl : List Bool) (m m' : Machine) :
    Prop where
  store : m.store.Folds R G Φ m'.store
  current : Stands fl Φ m.current m'.current
  nextId : m.nextId = m'.nextId
  output : m.output = m'.output
  capacity : m.capacity = m'.capacity
  clock : m.clock = m'.clock

/-- Results of the same sort, by a folding that has grown. The second run is in the frame that it was in
before. -/
inductive Result.Folds (R : Reading) (G : Guide) (Φ : Folding) (fl : List Bool) (current : FrameId)
    {α β : Type} (V : Folding → α → β → Prop) : Result α → Result β → Prop
  | ok {Ψ a b m m'} (hle : Φ <+: Ψ) (ha : V Ψ a b) (hm : m.Folds R G Ψ fl m')
      (hcurrent : m'.current = current) : Folds R G Φ fl current V (.ok a m) (.ok b m')
  | fault {Ψ f m m'} (hle : Φ <+: Ψ) (hm : m.Folds R G Ψ fl m') (hcurrent : m'.current = current) :
    Folds R G Φ fl current V (.fault f m) (.fault f m')
  | exhausted : Folds R G Φ fl current V .exhausted .exhausted

section
variable {R : Reading} {G : Guide} {Φ Ψ : Folding} {fl fl' : List Bool} {m m' : Machine}

/-- A change of the store, after which the folding may have grown. -/
theorem Machine.Folds.mapStore (hm : m.Folds R G Φ fl m') (hle : Φ <+: Ψ) {f g : Store → Store}
    (h : (f m.store).Folds R G Ψ (g m'.store)) : (m.mapStore f).Folds R G Ψ fl (m'.mapStore g) :=
  ⟨h, Folding.later hm.current hle, hm.nextId, hm.output, hm.capacity, hm.clock⟩

/-- Other frames become the current ones. -/
theorem Machine.Folds.setCurrent (hm : m.Folds R G Φ fl m') {f f' : FrameId}
    (hf : Stands fl' Φ f f') :
    Machine.Folds R G Φ fl' { m with current := f } { m' with current := f' } :=
  ⟨hm.store, hf, hm.nextId, hm.output, hm.capacity, hm.clock⟩

/-- Machines that have not run yet. -/
theorem Machine.folds_initial (R : Reading) (G : Guide) (clock : Number) (capacity : Option Nat) :
    (Machine.initial clock capacity).Folds R G [(Store.global, [])] [] (.initial clock capacity) :=
  ⟨.initial R G, rfl, rfl, rfl, rfl, rfl⟩

/-- More may be known of references. -/
theorem Machine.Folds.mono {G' : Guide} (hG : G.Within G') (hm : m.Folds R G Φ fl m') :
    m.Folds R G' Φ fl m' :=
  ⟨hm.store.mono hG, hm.current, hm.nextId, hm.output, hm.capacity, hm.clock⟩

theorem Result.Folds.since {α β : Type} {V : Folding → α → β → Prop} {r : Result α} {r' : Result β}
    {f : FrameId} (hle : Φ <+: Ψ) (h : r.Folds R G Ψ fl f V r') : r.Folds R G Φ fl f V r' := by
  cases h with
  | ok hlater ha hm hcurrent => exact .ok (hle.trans hlater) ha hm hcurrent
  | fault hlater hm hcurrent => exact .fault (hle.trans hlater) hm hcurrent
  | exhausted => exact .exhausted

end

namespace Run

open Exec

/-- **The second computation does what the first does**, in frames that answer each other. -/
def Answers (R : Reading) (G : Guide) (Φ : Folding) (fl : List Bool) {α β : Type}
    (V : Folding → α → β → Prop) (x : Exec α) (y : Exec β) : Prop :=
  ∀ ⦃m m' : Machine⦄, m.Folds R G Φ fl m' → (x m).Folds R G Φ fl m'.current V (y m')

section
variable {R : Reading} {G : Guide} {Φ : Folding} {fl fl' : List Bool} {α β γ δ : Type}
  {V : Folding → α → β → Prop} {W : Folding → γ → δ → Prop}

theorem Answers.seq {x : Exec α} {y : Exec β} {f : α → Exec γ} {g : β → Exec δ}
    (h : Answers R G Φ fl V x y)
    (hf : ∀ Ψ, Φ <+: Ψ → ∀ a b, V Ψ a b → Answers R G Ψ fl W (f a) (g b)) :
    Answers R G Φ fl W (x >>= f) (y >>= g) := by
  intro m m' hm
  have hr := h hm
  show Result.Folds R G Φ fl m'.current W (Exec.bind x f m) (Exec.bind y g m')
  unfold Exec.bind
  generalize x m = r at hr ⊢
  generalize y m' = r' at hr ⊢
  cases hr with
  | ok hle ha hm hcurrent => exact hcurrent ▸ (hf _ hle _ _ ha hm).since hle
  | fault hle hm hcurrent => exact .fault hle hm hcurrent
  | exhausted => exact .exhausted

theorem answers_pure {a : α} {b : β} (h : V Φ a b) : Answers R G Φ fl V (pure a) (pure b) :=
  fun _ _ hm => .ok (List.prefix_refl Φ) h hm rfl

/-- Computations that yield what others yield. -/
theorem Answers.map {x : Exec α} {y : Exec β} {f : α → γ} {g : β → δ} (h : Answers R G Φ fl V x y)
    (hf : ∀ Ψ a b, V Ψ a b → W Ψ (f a) (g b)) : Answers R G Φ fl W (f <$> x) (g <$> y) :=
  h.seq fun Ψ _ a b hab => answers_pure (hf Ψ a b hab)

/-- What the second computation yields at last is what it yields. -/
theorem Answers.last {x : Exec α} {y : Exec β} (h : Answers R G Φ fl V x y) :
    Answers R G Φ fl V x (y >>= pure) := by
  rwa [bind_pure]

theorem Answers.imp {x : Exec α} {y : Exec β} {V' : Folding → α → β → Prop}
    (h : Answers R G Φ fl V x y) (hV : ∀ Ψ a b, V Ψ a b → V' Ψ a b) : Answers R G Φ fl V' x y := by
  intro m m' hm
  have hr := h hm
  generalize x m = r at hr ⊢
  generalize y m' = r' at hr ⊢
  cases hr with
  | ok hle ha hm hcurrent => exact .ok hle (hV _ _ _ ha) hm hcurrent
  | fault hle hm hcurrent => exact .fault hle hm hcurrent
  | exhausted => exact .exhausted

theorem answers_exhausted : Answers R G Φ fl V Exec.exhausted Exec.exhausted :=
  fun _ _ _ => .exhausted

theorem answers_raise (site : Token) (cause : Cause) :
    Answers R G Φ fl V (raise site cause) (raise site cause) :=
  fun _ _ hm => .fault (List.prefix_refl Φ) hm rfl

theorem answers_ofOperator {x x' : Except Fault Value}
    (h : OperatorLike (Function.Folds R G Φ []) (Function.Folds R G Φ [false]) Eq x x') :
    Answers R G Φ fl (Value.Folds R G) (ofOperator x) (ofOperator x') := by
  intro m m' hm
  cases h with
  | ok hv => exact .ok (List.prefix_refl Φ) hv hm rfl
  | error hf =>
    cases hf.eq
    exact .fault (List.prefix_refl Φ) hm rfl

theorem answers_ofOption {o : Option α} {o' : Option β} (h : Option.Rel (V Φ) o o') (f : Fault) :
    Answers R G Φ fl V (ofOption o f) (ofOption o' f) := by
  intro m m' hm
  cases h with
  | none => exact .fault (List.prefix_refl Φ) hm rfl
  | some hv => exact .ok (List.prefix_refl Φ) hv hm rfl

/-- Both runs go to other frames and come back. -/
theorem Answers.inFrame {x : Exec α} {y : Exec β} {f f' : FrameId} (hf : Stands fl' Φ f f')
    (h : Answers R G Φ fl' V x y) : Answers R G Φ fl V (inFrame f x) (inFrame f' y) := by
  intro m m' hm
  have hr := h (hm.setCurrent hf)
  unfold Exec.inFrame
  dsimp only
  generalize x { m with current := f } = r at hr ⊢
  generalize y { m' with current := f' } = r' at hr ⊢
  cases hr with
  | ok hle ha hm' _ => exact .ok hle ha (hm'.setCurrent (Folding.later hm.current hle)) rfl
  | fault hle hm' _ => exact .fault hle (hm'.setCurrent (Folding.later hm.current hle)) rfl
  | exhausted => exact .exhausted

/-- **A block of the first run is a turn of the second.** The first run goes to a frame that it makes and
comes back; that frame is folded, and the second run stays where it is. -/
theorem Answers.turn {x : Exec α} {y : Exec β}
    (h : ∀ Ψ, Φ <+: Ψ → Answers R G Ψ (true :: fl) V x y) :
    Answers R G Φ fl V (do Exec.inFrame (← newFrame [] (← currentFrame)) x) y := by
  intro m m' hm
  have hle : Φ <+: Φ ++ [(m'.current, true :: fl)] := List.prefix_append _ _
  have hframe : Stands (true :: fl) (Φ ++ [(m'.current, true :: fl)]) m.store.frames.size
      m'.current := by
    rw [Stands, ← hm.store.size, List.getElem?_concat_length]
  have hr := @h _ hle
    { m with store := (m.store.newFrame [] (some m.current)).2, current := m.store.frames.size } m'
    ⟨hm.store.fold hm.current, hframe, hm.nextId, hm.output, hm.capacity, hm.clock⟩
  have hback {Ψ : Folding} {m₁ m₁' : Machine} (hΨ : Φ ++ [(m'.current, true :: fl)] <+: Ψ)
      (hm₁ : m₁.Folds R G Ψ (true :: fl) m₁') (hcurrent : m₁'.current = m'.current) :
      Machine.Folds R G Ψ fl { m₁ with current := m.current } m₁' :=
    ⟨hm₁.store, hcurrent ▸ Folding.later hm.current (hle.trans hΨ), hm₁.nextId, hm₁.output,
      hm₁.capacity, hm₁.clock⟩
  show Result.Folds R G Φ fl m'.current V (Exec.inFrame m.store.frames.size x
    { m with store := (m.store.newFrame [] (some m.current)).2 }) (y m')
  unfold Exec.inFrame
  dsimp only
  generalize x { m with store := _, current := m.store.frames.size } = r at hr ⊢
  generalize y m' = r' at hr ⊢
  cases hr with
  | ok hΨ ha hm₁ hcurrent => exact .ok (hle.trans hΨ) ha (hback hΨ hm₁ hcurrent) hcurrent
  | fault hΨ hm₁ hcurrent => exact .fault (hle.trans hΨ) (hback hΨ hm₁ hcurrent) hcurrent
  | exhausted => exact .exhausted

end

section
variable {R : Reading} {G : Guide} {Φ : Folding} {fl fl' : List Bool} {f f' : FrameId}

/-! ## Frames -/

theorem answers_currentFrame : Answers R G Φ fl (Stands fl) currentFrame currentFrame :=
  fun _ _ hm => .ok (List.prefix_refl Φ) hm.current hm rfl

theorem answers_newFrame {bs bs' : Bindings} (hbs : bs.Alike (Value.Folds R G Φ) bs')
    (hf : Stands fl' Φ f f') :
    Answers R G Φ fl (Stands (false :: fl')) (newFrame bs f) (newFrame bs' f') := by
  intro m m' hm
  have hle : Φ <+: Φ ++ [(m'.store.frames.size, false :: fl')] := List.prefix_append _ _
  refine .ok hle ?_ ⟨hm.store.newFrame hf hbs, Folding.later hm.current hle, hm.nextId, hm.output,
    hm.capacity, hm.clock⟩ rfl
  show (Φ ++ [(m'.store.frames.size, false :: fl')])[m.store.frames.size]? = _
  rw [← hm.store.size, List.getElem?_concat_length]

/-- The current frame is not folded when a name is bound in it. -/
theorem answers_define (hfl : Unfolded fl) (x : String) {v v' : Value} (hv : v.Folds R G Φ v') :
    Answers R G Φ fl (fun _ => Eq) (define x v) (define x v') := fun _ _ hm =>
  .ok (List.prefix_refl Φ) rfl
    (hm.mapStore (List.prefix_refl Φ) (hm.store.define hm.current hfl x hv)) rfl

theorem answers_assignIn {o o' : Option FrameId}
    (ho : Option.Rel (fun g g' => ∃ fl', Stands fl' Φ g g' ∧ Unfolded fl') o o') (t : Token)
    {v v' : Value} (hv : v.Folds R G Φ v') :
    Answers R G Φ fl (fun _ => Eq) (assignIn o t v) (assignIn o' t v') := by
  intro m m' hm
  cases ho with
  | none => exact .fault (List.prefix_refl Φ) hm rfl
  | some hg =>
    obtain ⟨fl', hg, hfl'⟩ := hg
    exact .ok (List.prefix_refl Φ) rfl
      (hm.mapStore (List.prefix_refl Φ) (hm.store.define hg hfl' t.lexeme hv)) rfl

theorem answers_assignFrom (hf : Stands fl' Φ f f') (t : Token) {v v' : Value}
    (hv : v.Folds R G Φ v') :
    Answers R G Φ fl (fun _ => Eq) (assignFrom f t v) (assignFrom f' t v') :=
  fun _ _ hm => answers_assignIn (hm.store.owner? hf t.lexeme) t hv hm

/-! ## References -/

section
variable {D D' : Distances} {r : RefId}

theorem answers_readRef (hr : Distance.Folds fl D[r]? D'[r]?) (t : Token) :
    Answers R G Φ fl (Value.Folds R G) (readRef (.byDistance D) r t)
      (readRef (.byDistance D') r t) := by
  intro m m' hm
  unfold readRef
  dsimp only
  generalize D[r]? = d at hr ⊢
  generalize D'[r]? = d' at hr ⊢
  cases hr with
  | global => exact answers_ofOption (hm.store.lookup hm.store.root t.lexeme) _ hm
  | scope hd => exact answers_ofOption (hm.store.getAt hm.current hd t.lexeme) _ hm

theorem answers_writeRef (hr : Distance.Folds fl D[r]? D'[r]?) (t : Token) {v v' : Value}
    (hv : v.Folds R G Φ v') :
    Answers R G Φ fl (fun _ => Eq) (writeRef (.byDistance D) r t v)
      (writeRef (.byDistance D') r t v') := by
  intro m m' hm
  unfold writeRef
  dsimp only
  generalize D[r]? = d at hr ⊢
  generalize D'[r]? = d' at hr ⊢
  cases hr with
  | global => exact answers_assignFrom hm.store.root t hv hm
  | scope hd =>
    obtain ⟨g, g', hg, hg', hΦ⟩ := hm.store.ancestor hm.current hd
    dsimp only
    rw [hg, hg']
    exact answers_assignIn (.some ⟨_, hΦ, Store.Folds.unfolded_drop hd⟩) t hv hm

end

/-- What is at a distance in both runs, if the scopes on the way are known. -/
theorem answers_getAt {d : Nat} (hd : fl[d]? = some false) (x : String) (fault : Fault) :
    Answers R G Φ fl (Value.Folds R G)
      (fun m => ofOption (m.store.getAt m.current d x) fault m)
      (fun m => ofOption (m.store.getAt m.current ((fl.take d).count false) x) fault m) :=
  fun _ _ hm => answers_ofOption (hm.store.getAt hm.current hd x) fault hm

/-! ## Functions, classes and instances -/

theorem answers_freshId : Answers R G Φ fl (fun _ => Eq) freshId freshId := fun _ _ hm =>
  .ok (List.prefix_refl Φ) hm.nextId
    ⟨hm.store, hm.current, congrArg (· + 1) hm.nextId, hm.output, hm.capacity, hm.clock⟩ rfl

theorem answers_newFunction {inner : List Bool} {d : FunctionDecl} (hd : d.Led R G (inner ++ fl'))
    (hf : Stands fl' Φ f f') :
    Answers R G Φ fl (fun Ψ => Function.Folds R G Ψ inner) (newFunction d f) (newFunction d f') :=
  answers_freshId.seq fun _ hle _ _ hid =>
    answers_pure ⟨hid, rfl, fl', Folding.later hf hle, hd⟩

theorem answers_newMethods {ds : List FunctionDecl} (hds : FunctionDecl.LedAll R G ds (false :: fl'))
    (hf : Stands fl' Φ f f') {made made' : List Function}
    (hmade : Forall₂ (Function.Folds R G Φ [false]) made made') :
    Answers R G Φ fl (fun Ψ => Forall₂ (Function.Folds R G Ψ [false])) (newMethods f ds made)
      (newMethods f' ds made') := by
  induction ds generalizing Φ made made' with
  | nil => exact answers_pure hmade
  | cons d ds ih =>
    have hfirst : Answers R G Φ fl (fun Ψ => Function.Folds R G Ψ [false]) (newFunction d f)
        (newFunction d f') := answers_newFunction hds.1 hf
    unfold newMethods
    exact hfirst.seq fun Ψ hle _ _ hfn =>
      ih hds.2 (Folding.later hf hle) (.cons hfn (hmade.imp fun _ _ hg => hg.later hle))

theorem answers_bindMethod {fn fn' : Function} (hfn : fn.Folds R G Φ [false] fn')
    (receiver : InstanceId) :
    Answers R G Φ fl (fun Ψ => Function.Folds R G Ψ []) (bindMethod fn receiver)
      (bindMethod fn' receiver) := by
  obtain ⟨fl', hframe, hled⟩ := hfn.frame
  unfold bindMethod
  rw [← hfn.decl]
  exact (answers_newFrame (.single _ (.object receiver)) hframe).seq fun Ψ _ _ _ hnew =>
    answers_newFunction hled hnew

theorem answers_newInstance {c c' : Class} (hc : c.Folds R G Φ c') :
    Answers R G Φ fl (fun _ => Eq) (newInstance c) (newInstance c') := fun _ _ hm =>
  .ok (List.prefix_refl Φ) hm.store.instances.size
    ⟨hm.store.newInstance hc, hm.current, hm.nextId, hm.output, hm.capacity, hm.clock⟩ rfl

theorem answers_setField (i : InstanceId) (x : String) {v v' : Value} (hv : v.Folds R G Φ v') :
    Answers R G Φ fl (fun _ => Eq) (setField i x v) (setField i x v') := fun _ _ hm =>
  .ok (List.prefix_refl Φ) rfl
    (hm.mapStore (List.prefix_refl Φ) (hm.store.setField i x hv)) rfl

theorem answers_instanceProperty (i : InstanceId) (t : Token) :
    Answers R G Φ fl (Value.Folds R G) (instanceProperty i t) (instanceProperty i t) := by
  intro m m' hm
  unfold instanceProperty
  have hfield := hm.store.instances.field i t.lexeme
  generalize m.store.field? i t.lexeme = o at hfield ⊢
  generalize m'.store.field? i t.lexeme = o' at hfield ⊢
  cases hfield with
  | some hv => exact .ok (List.prefix_refl Φ) hv hm rfl
  | none =>
    have hmethod := hm.store.instances.method i t.lexeme
    dsimp only
    generalize (m.store.class? i).bind (Class.findMethod t.lexeme) = o at hmethod ⊢
    generalize (m'.store.class? i).bind (Class.findMethod t.lexeme) = o' at hmethod ⊢
    cases hmethod with
    | none => exact .fault (List.prefix_refl Φ) hm rfl
    | some hfn => exact (answers_bindMethod hfn i).map (fun _ _ _ hf => .function hf) hm

theorem answers_property {v v' : Value} (hv : v.Folds R G Φ v') (t : Token) :
    Answers R G Φ fl (Value.Folds R G) (property v t) (property v' t) := by
  cases hv with
  | object i => exact answers_instanceProperty i t
  | library l =>
    refine answers_ofOption ?_ _
    cases l.function? t.lexeme with
    | none => exact .none
    | some f => exact .some (.native f)
  | _ => exact answers_raise t _

section
variable {D D' : Distances} {r : RefId}

/-- The references of `super` and of its receiver, which is bound just inside. -/
theorem answers_superMethod {k : Nat} (hd : D[r]? = some (k + 1))
    (hd' : D'[r]? = some ((fl.take k).count false + 1)) (hthis : fl[k]? = some false)
    (hsuper : fl[k + 1]? = some false) (t u : Token) :
    Answers R G Φ fl (Value.Folds R G) (superMethod (.byDistance D) r t u)
      (superMethod (.byDistance D') r t u) := by
  have hcount : (fl.take (k + 1)).count false = (fl.take k).count false + 1 := by
    rw [List.take_add_one, hthis]
    simp
  have hread : Answers R G Φ fl (Value.Folds R G) (readSuper (.byDistance D) r t)
      (readSuper (.byDistance D') r t) := by
    unfold readSuper
    simp only [hd, hd', ← hcount]
    exact answers_getAt hsuper _ _
  have hreceiver {Ψ : Folding} : Answers R G Ψ fl (Value.Folds R G)
      (readReceiver (.byDistance D) r t) (readReceiver (.byDistance D') r t) := by
    unfold readReceiver
    simp only [hd, hd', Nat.add_sub_cancel]
    exact answers_getAt hthis _ _
  unfold superMethod
  refine hread.seq fun Ψ _ v v' hv => ?_
  cases hv with
  | cls hc =>
    refine hreceiver.seq fun Ψ' hle v v' hv => ?_
    cases hv with
    | object i =>
      dsimp only
      have hmethod := (Class.Folds.later hc hle).findMethod u.lexeme
      generalize Class.findMethod u.lexeme _ = o at hmethod ⊢
      generalize Class.findMethod u.lexeme _ = o' at hmethod ⊢
      cases hmethod with
      | none => exact answers_raise u _
      | some hfn => exact (answers_bindMethod hfn i).map fun _ _ _ hf => .function hf
    | _ => exact answers_raise t _
  | _ => exact answers_raise t _

theorem answers_readParent {superclass : Option Superclass}
    (h : ∀ parent ∈ superclass, Distance.Folds fl D[parent.ref]? D'[parent.ref]?) :
    Answers R G Φ fl
      (fun Ψ c c' => Option.Rel (Class.Folds R G Ψ) c c' ∧ c.isSome = superclass.isSome)
      (readParent (.byDistance D) superclass) (readParent (.byDistance D') superclass) := by
  cases superclass with
  | none => exact answers_pure ⟨.none, rfl⟩
  | some parent =>
    refine (answers_readRef (h parent rfl) parent.name).seq fun Ψ _ v v' hv => ?_
    cases hv with
    | cls hc => exact answers_pure ⟨.some hc, rfl⟩
    | _ => exact answers_raise parent.name _

/-- The frame that methods are made in: it binds `super` if there is a superclass. Together with the one
of the receiver it stands for the scopes of the class. -/
theorem answers_methodFrame {superclass : Option Superclass} {c c' : Option Class}
    (hc : Option.Rel (Class.Folds R G Φ) c c') (hsome : c.isSome = superclass.isSome)
    (hf : Stands fl' Φ f f') :
    Answers R G Φ fl
      (fun Ψ g g' => ∃ inner, Stands inner Ψ g g' ∧ false :: inner = classFlags superclass ++ fl')
      (methodFrame c f) (methodFrame c' f') := by
  cases hc with
  | none =>
    cases superclass with
    | none => exact answers_pure ⟨fl', hf, rfl⟩
    | some parent => cases hsome
  | some hc =>
    cases superclass with
    | none => cases hsome
    | some parent =>
      exact (answers_newFrame (.single "super" (.cls hc)) hf).imp fun _ _ _ hnew =>
        ⟨false :: fl', hnew, rfl⟩

/-- The same declaration makes classes that answer each other. -/
theorem class_folds {c c' : Option Class} (hc : Option.Rel (Class.Folds R G Φ) c c') (id : Nat)
    (x : String) {ms ms' : List Function} (hms : Forall₂ (Function.Folds R G Φ [false]) ms ms') :
    Class.Folds R G Φ ⟨id, x, c, ms⟩ ⟨id, x, c', ms'⟩ := by
  cases hc with
  | none => exact .base hms
  | some hc => exact .derived hc hms

theorem answers_declareClass {decl : ClassDecl}
    (hparent : ∀ parent ∈ decl.superclass, Distance.Folds fl D[parent.ref]? D'[parent.ref]?)
    (hmethods : FunctionDecl.LedAll R G decl.methods (classFlags decl.superclass ++ fl))
    (hfl : Unfolded fl) :
    Answers R G Φ fl (fun _ => Eq) (declareClass (.byDistance D) decl)
      (declareClass (.byDistance D') decl) := by
  have hmade : Answers R G Φ fl
      (fun Ψ made made' => Stands fl Ψ made.1 made'.1 ∧ made.2.Folds R G Ψ made'.2)
      (makeClass (.byDistance D) decl) (makeClass (.byDistance D') decl) := by
    refine (answers_readParent hparent).seq fun Φ₁ _ c c' ⟨hc, hsome⟩ =>
      (answers_define hfl _ .null).seq fun Φ₂ h₂ _ _ _ =>
      answers_currentFrame.seq fun Φ₃ h₃ frame frame' hframe => ?_
    have hc₃ : Option.Rel (Class.Folds R G Φ₃) c c' :=
      relOption_imp (fun _ _ hc => Class.Folds.later hc (h₂.trans h₃)) hc
    refine (answers_methodFrame hc₃ hsome hframe).seq fun Φ₄ h₄ inner inner' hinner => ?_
    obtain ⟨fl', hinner, hflags⟩ := hinner
    rw [← hflags] at hmethods
    refine (answers_newMethods hmethods hinner .nil).seq fun Φ₅ h₅ ms ms' hms =>
      answers_freshId.seq fun Φ₆ h₆ id id' hid => ?_
    subst hid
    have hc₆ : Option.Rel (Class.Folds R G Φ₆) c c' :=
      relOption_imp (fun _ _ hc => Class.Folds.later hc (h₄.trans (h₅.trans h₆))) hc₃
    exact answers_pure ⟨Folding.later hframe (h₄.trans (h₅.trans h₆)),
      class_folds hc₆ id _ (hms.imp fun _ _ hf => hf.later h₆)⟩
  rw [declareClass_eq, declareClass_eq]
  exact hmade.seq fun Ψ _ made made' h => answers_assignFrom h.1 decl.name (.cls h.2)

end

/-! ## Built-in functions -/

theorem answers_writeLine (text : String) (t : Token) :
    Answers R G Φ fl (fun _ => Eq) (writeLine text t) (writeLine text t) := by
  intro m m' hm
  unfold writeLine
  rw [hm.capacity, hm.output]
  cases m'.capacity with
  | none =>
    exact .ok (List.prefix_refl Φ) rfl ⟨hm.store, hm.current, hm.nextId, rfl, rfl, hm.clock⟩ rfl
  | some n =>
    dsimp only
    split_ifs
    · exact .fault (List.prefix_refl Φ) hm rfl
    · exact .ok (List.prefix_refl Φ) rfl ⟨hm.store, hm.current, hm.nextId, rfl, rfl, hm.clock⟩ rfl

/-- **The same line is written by both runs.** -/
theorem answers_log {args args' : List Value} (hargs : Forall₂ (Value.Folds R G Φ) args args')
    (t : Token) :
    Answers R G Φ fl (Value.Folds R G)
      (fun m => (writeLine (lineOf m args) t >>= fun _ => pure .null) m)
      (fun m => (writeLine (lineOf m args') t >>= fun _ => pure .null) m) := by
  intro m m' hm
  have hline : lineOf m args = lineOf m' args' := by
    unfold lineOf
    cases hargs with
    | nil => rfl
    | cons hv _ => exact congrArg (fun text => (some text).getD "") (hm.store.instances.text hv)
  beta_reduce
  rw [hline]
  exact (answers_writeLine _ t).seq (fun _ _ _ _ _ => answers_pure .null) hm

theorem answers_now (args args' : List Value) (t : Token) :
    Answers R G Φ fl (Value.Folds R G) (callNative .now args t) (callNative .now args' t) := by
  intro m m' hm
  unfold callNative
  dsimp only
  rw [hm.clock]
  exact .ok (List.prefix_refl Φ) (.number _) hm rfl

end

end Run

end Scriptlet
