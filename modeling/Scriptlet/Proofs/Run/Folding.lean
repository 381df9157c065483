import Scriptlet.Proofs.Run.Alike
import Scriptlet.Proofs.Scope.Reading

/-!
# Stores of a run that reads turns

A run of the tree as it stands makes a frame for every turn of a `for`. A run that reads turns does
without them. So the frames of the two runs have other numbers and other links. A `Folding` says for
every frame of the first run which frame of the second one it stands for, and which of the frames from it
outwards are *folded*: frames of turns, which stand for the frame around them. A folded frame binds
nothing, for ever.

Values differ in the frames that functions were made in, and nothing else: their trees are the same, and
led from these frames (`Function.Folds`). The folding only grows, and what answers each other by it does
so later.

Results:
* `Store.Folds.ancestor`, `Store.Folds.owner?`: the frames found along the links answer each other.
* `Store.Folds.define`, `Store.Folds.newFrame`, `Store.Folds.fold`: one lemma for each change of frames.
-/

namespace Scriptlet

open Scope

/-- For every frame the one it stands for, and the flags of the frames from it outwards. -/
abbrev Folding := List (FrameId × List Bool)

section
variable {R : Reading} {G : Guide} {Φ Ψ : Folding}

/-- What is known of a frame stays known. -/
theorem Folding.later {f : FrameId} {p : FrameId × List Bool} (h : Φ[f]? = some p) (hle : Φ <+: Ψ) :
    Ψ[f]? = some p := by
  obtain ⟨new, rfl⟩ := hle
  obtain ⟨hlt, -⟩ := List.getElem?_eq_some_iff.mp h
  rwa [List.getElem?_append_left hlt]

/-- A frame of a longer folding is one of before or the last one. -/
theorem Folding.of_concat {f : FrameId} {p q : FrameId × List Bool}
    (h : (Φ ++ [p])[f]? = some q) : Φ[f]? = some q ∨ f = Φ.length ∧ q = p := by
  rw [List.getElem?_append] at h
  split_ifs at h with hlt
  · exact .inl h
  · rw [List.getElem?_singleton] at h
    split_ifs at h with hlast
    cases h
    exact .inr ⟨Nat.le_antisymm (Nat.sub_eq_zero_iff_le.mp hlast) (Nat.le_of_not_lt hlt), rfl⟩

/-! ## Values -/

/-- **The same function, made in frames that answer each other**, from which its body is led. Between the
frame of a method and its body there will be one that binds the receiver (`inner`). -/
structure Function.Folds (R : Reading) (G : Guide) (Φ : Folding) (inner : List Bool)
    (f f' : Function) : Prop where
  id : f.id = f'.id
  decl : f.decl = f'.decl
  frame : ∃ fl, Φ[f.frame]? = some (f'.frame, fl) ∧ f.decl.Led R G (inner ++ fl)

instance (inner : List Bool) : Faithful (Function.Folds R G Φ inner) :=
  ⟨fun h => ⟨h.id, by rw [Function.name, h.decl, Function.name],
    by rw [Function.arity, h.decl, Function.arity]⟩⟩

theorem Function.Folds.later {inner : List Bool} {f f' : Function} (h : f.Folds R G Φ inner f')
    (hle : Φ <+: Ψ) : f.Folds R G Ψ inner f' := by
  obtain ⟨fl, hframe, hled⟩ := h.frame
  exact ⟨h.id, h.decl, fl, Folding.later hframe hle, hled⟩

theorem Function.Folds.mono {G' : Guide} (hG : G.Within G') {inner : List Bool} {f f' : Function}
    (h : f.Folds R G Φ inner f') : f.Folds R G' Φ inner f' := by
  obtain ⟨fl, hframe, hled⟩ := h.frame
  exact ⟨h.id, h.decl, fl, hframe, hled.mono hG⟩

abbrev Class.Folds (R : Reading) (G : Guide) (Φ : Folding) : Class → Class → Prop :=
  Class.Alike (Function.Folds R G Φ [false])

/-- **Values that are the same but for the frames of their functions.** -/
abbrev Value.Folds (R : Reading) (G : Guide) (Φ : Folding) : Value → Value → Prop :=
  Value.Alike (Function.Folds R G Φ []) (Function.Folds R G Φ [false])

theorem Class.Folds.later {c c' : Class} (h : c.Folds R G Φ c') (hle : Φ <+: Ψ) :
    c.Folds R G Ψ c' := h.mono fun _ _ hf => hf.later hle

theorem Value.Folds.later {v v' : Value} (h : v.Folds R G Φ v') (hle : Φ <+: Ψ) :
    v.Folds R G Ψ v' := h.mono (fun _ _ hf => hf.later hle) fun _ _ hf => hf.later hle

end

/-! ## Frames -/

/-- **A frame and the one it stands for.** They are outermost or linked to frames that answer each other,
and bind the same names; but a folded frame stands for the one around it and binds nothing. -/
inductive Frame.Folds (V : Value → Value → Prop) (Φ : Folding) (s s' : Store) :
    FrameId → FrameId → List Bool → Prop
  | outermost {f f'} (hf : s.enclosing? f = none) (hf' : s'.enclosing? f' = none)
      (hget : ∀ x, Option.Rel V (s.get? f x) (s'.get? f' x)) : Folds V Φ s s' f f' []
  | kept {f f' g g' fl} (hf : s.enclosing? f = some g) (hf' : s'.enclosing? f' = some g')
      (hg : Φ[g]? = some (g', fl)) (hget : ∀ x, Option.Rel V (s.get? f x) (s'.get? f' x)) :
    Folds V Φ s s' f f' (false :: fl)
  | folded {f f' g fl} (hf : s.enclosing? f = some g) (hg : Φ[g]? = some (f', fl))
      (hget : ∀ x, s.get? f x = none) : Folds V Φ s s' f f' (true :: fl)

/-- The bindings are those before, and so is the link. -/
theorem Frame.Folds.congr {V W : Value → Value → Prop} {Φ Ψ : Folding} {s s' t t' : Store}
    {f f' : FrameId} {fl : List Bool} (h : Frame.Folds V Φ s s' f f' fl) (hΦ : Φ <+: Ψ)
    (hlink : t.enclosing? f = s.enclosing? f) (hlink' : t'.enclosing? f' = s'.enclosing? f')
    (hfolded : ∀ x, s.get? f x = none → fl.head? = some true → t.get? f x = none)
    (hget : ∀ x, Unfolded fl → Option.Rel V (s.get? f x) (s'.get? f' x) →
      Option.Rel W (t.get? f x) (t'.get? f' x)) : Frame.Folds W Ψ t t' f f' fl := by
  cases h with
  | outermost hf hf' hv =>
    exact .outermost (hlink.trans hf) (hlink'.trans hf') fun x => hget x nofun (hv x)
  | kept hf hf' hg hv =>
    exact .kept (hlink.trans hf) (hlink'.trans hf') (Folding.later hg hΦ)
      fun x => hget x (unfolded_kept _) (hv x)
  | folded hf hg hv =>
    exact .folded (hlink.trans hf) (Folding.later hg hΦ) fun x => hfolded x (hv x) rfl

/-- **Stores of two runs, the second without the frames of turns.** -/
structure Store.Folds (R : Reading) (G : Guide) (Φ : Folding) (s s' : Store) : Prop where
  size : Φ.length = s.frames.size
  root : Φ[Store.global]? = some (Store.global, [])
  links (f g : FrameId) : s.enclosing? f = some g → g < f
  links' (f g : FrameId) : s'.enclosing? f = some g → g < f
  image {f f' : FrameId} {fl : List Bool} : Φ[f]? = some (f', fl) → f' < s'.frames.size
  /-- A frame stands for one that is not folded only. -/
  single {f g f' : FrameId} {fl fl' : List Bool} : Φ[f]? = some (f', fl) → Unfolded fl →
    Φ[g]? = some (f', fl') → Unfolded fl' → f = g
  frame {f f' : FrameId} {fl : List Bool} : Φ[f]? = some (f', fl) →
    Frame.Folds (Value.Folds R G Φ) Φ s s' f f' fl
  instances : s.Instances (Function.Folds R G Φ []) (Function.Folds R G Φ [false]) s'

namespace Store.Folds

variable {R : Reading} {G : Guide} {Φ : Folding} {s s' : Store} {f f' : FrameId} {fl : List Bool}

/-! ### Names and links -/

theorem get? (h : s.Folds R G Φ s') (hf : Φ[f]? = some (f', fl)) (hfl : Unfolded fl) (x : String) :
    Option.Rel (Value.Folds R G Φ) (s.get? f x) (s'.get? f' x) := by
  cases h.frame hf with
  | outermost _ _ hget => exact hget x
  | kept _ _ _ hget => exact hget x
  | folded => exact absurd rfl hfl

/-- **The frame at a distance answers the one that is nearer by the folded frames on the way.** -/
theorem ancestor (h : s.Folds R G Φ s') (hf : Φ[f]? = some (f', fl)) {d : Nat}
    (hd : fl[d]? = some false) :
    ∃ g g', s.ancestor f d = some g ∧ s'.ancestor f' ((fl.take d).count false) = some g' ∧
      Φ[g]? = some (g', fl.drop d) := by
  induction d generalizing f f' fl with
  | zero => exact ⟨f, f', rfl, rfl, hf⟩
  | succ d ih =>
    cases h.frame hf with
    | outermost => cases hd
    | kept hlink hlink' hg =>
      obtain ⟨a, a', ha, ha', hΦ⟩ := ih hg hd
      refine ⟨a, a', (ancestor_succ hlink d).trans ha, ?_, hΦ⟩
      simpa using (ancestor_succ hlink' _).trans ha'
    | folded hlink hg =>
      obtain ⟨a, a', ha, ha', hΦ⟩ := ih hg hd
      refine ⟨a, a', (ancestor_succ hlink d).trans ha, ?_, hΦ⟩
      simpa using ha'

theorem unfolded_drop {d : Nat} (hd : fl[d]? = some false) : Unfolded (fl.drop d) := by
  simp [Unfolded, List.head?_drop, hd]

/-- What a name is bound to at a distance. -/
theorem getAt (h : s.Folds R G Φ s') (hf : Φ[f]? = some (f', fl)) {d : Nat}
    (hd : fl[d]? = some false) (x : String) :
    Option.Rel (Value.Folds R G Φ) (s.getAt f d x)
      (s'.getAt f' ((fl.take d).count false) x) := by
  obtain ⟨g, g', hg, hg', hΦ⟩ := h.ancestor hf hd
  unfold Store.getAt
  rw [hg, hg']
  exact h.get? hΦ (unfolded_drop hd) x

/-- **The first frame that binds a name**, from frames that answer each other: it is not folded. -/
theorem owner? (h : s.Folds R G Φ s') (hf : Φ[f]? = some (f', fl)) (x : String) :
    Option.Rel (fun g g' => ∃ fl', Φ[g]? = some (g', fl') ∧ Unfolded fl') (s.owner? f x)
      (s'.owner? f' x) := by
  induction fl generalizing f f' with
  | nil =>
    cases h.frame hf with
    | outermost hlink hlink' hget =>
      rw [owner?_eq h.links, owner?_eq h.links', hlink, hlink', isSome_of_rel (hget x)]
      split_ifs
      · exact .some ⟨[], hf, nofun⟩
      · exact .none
  | cons folded fl ih =>
    cases h.frame hf with
    | kept hlink hlink' hg hget =>
      rw [owner?_eq h.links, owner?_eq h.links', hlink, hlink', isSome_of_rel (hget x)]
      split_ifs
      · exact .some ⟨_, hf, unfolded_kept fl⟩
      · exact ih hg
    | folded hlink hg hget =>
      rw [owner?_eq h.links, hget x, hlink]
      exact ih hg

theorem lookup (h : s.Folds R G Φ s') (hf : Φ[f]? = some (f', fl)) (x : String) :
    Option.Rel (Value.Folds R G Φ) (s.lookup f x) (s'.lookup f' x) := by
  have howner := h.owner? hf x
  unfold Store.lookup
  generalize s.owner? f x = o at howner ⊢
  generalize s'.owner? f' x = o' at howner ⊢
  cases howner with
  | none => exact .none
  | some hg =>
    obtain ⟨fl', hΦ, hfl'⟩ := hg
    exact h.get? hΦ hfl' x

/-! ### Changes -/

theorem define (h : s.Folds R G Φ s') (hf : Φ[f]? = some (f', fl)) (hfl : Unfolded fl) (x : String)
    {v v' : Value} (hv : v.Folds R G Φ v') :
    (s.define f x v).Folds R G Φ (s'.define f' x v') := by
  refine ⟨?_, h.root, ?_, ?_, ?_, h.single, fun {g g' fl'} hg => ?_,
    ⟨h.instances.size, h.instances.cls, h.instances.field⟩⟩
  · rw [size_define, h.size]
  · simpa using h.links
  · simpa using h.links'
  · intro g g' fl' hg
    simpa using h.image hg
  · refine (h.frame hg).congr (List.prefix_refl Φ) (enclosing?_define ..) (enclosing?_define ..)
      (fun y hnone hfolded => ?_) fun y hfl' hy => ?_
    · rw [get?_define, if_neg, hnone]
      rintro ⟨rfl, -⟩
      rw [hf] at hg
      cases hg
      exact hfl hfolded
    · have hlt : f < s.frames.size := h.size ▸ (List.getElem?_eq_some_iff.mp hf).1
      have hiff : g = f ↔ g' = f' := by
        constructor
        · rintro rfl
          rw [hf] at hg
          cases hg
          rfl
        · rintro rfl
          exact h.single hg hfl' hf hfl
      rw [get?_define, get?_define]
      simp only [hlt, h.image hf, and_true, hiff]
      split_ifs
      · exact .some hv
      · exact hy

/-- **The first run makes a frame.** It answers a frame of the second run, which may be new too; if it is
not folded, that frame has to answer no other. -/
theorem concat (h : s.Folds R G Φ s') (hf : Φ[f]? = some (f', fl)) (bs : Bindings) {t' : Store}
    {g' : FrameId} {folded : Bool} (hsize : s'.frames.size ≤ t'.frames.size)
    (hold : ∀ g < s'.frames.size, t'.enclosing? g = s'.enclosing? g ∧ t'.get? g = s'.get? g)
    (hlinks : ∀ g o, t'.enclosing? g = some o → o < g) (hinstances : t'.instances = s'.instances)
    (hg' : g' < t'.frames.size) (hsingle : folded = true ∨ s'.frames.size ≤ g')
    (hnew : Frame.Folds (Value.Folds R G (Φ ++ [(g', folded :: fl)])) (Φ ++ [(g', folded :: fl)])
      (s.newFrame bs (some f)).2 t' s.frames.size g' (folded :: fl)) :
    (s.newFrame bs (some f)).2.Folds R G (Φ ++ [(g', folded :: fl)]) t' := by
  have hle : Φ <+: Φ ++ [(g', folded :: fl)] := List.prefix_append _ _
  have hlt : f < s.frames.size := h.size ▸ (List.getElem?_eq_some_iff.mp hf).1
  have hlater (x y : Option Value) (hxy : Option.Rel (Value.Folds R G Φ) x y) :
      Option.Rel (Value.Folds R G (Φ ++ [(g', folded :: fl)])) x y :=
    relOption_imp (fun _ _ hv => Value.Folds.later hv hle) hxy
  have hother {g : FrameId} {fl' : List Bool} (hg : Φ[g]? = some (g', fl')) : folded = true :=
    hsingle.resolve_right (Nat.not_le_of_lt (h.image hg))
  refine ⟨?_, Folding.later h.root hle, fun g o hg => ?_, hlinks, fun {g k fl'} hg => ?_,
    fun {g₁ g₂ k fl₁ fl₂} hg₁ hfl₁ hg₂ hfl₂ => ?_, fun {g k fl'} hg => ?_, ?_⟩
  · rw [List.length_append, size_newFrame, h.size]
    rfl
  · rw [enclosing?_newFrame] at hg
    split_ifs at hg with heq
    · cases hg
      exact heq ▸ hlt
    · exact h.links g o hg
  · rcases Folding.of_concat hg with hg | ⟨-, he⟩
    · exact Nat.lt_of_lt_of_le (h.image hg) hsize
    · cases he
      exact hg'
  · rcases Folding.of_concat hg₁ with hg₁ | ⟨rfl, he₁⟩
    · rcases Folding.of_concat hg₂ with hg₂ | ⟨-, he₂⟩
      · exact h.single hg₁ hfl₁ hg₂ hfl₂
      · cases he₂
        exact absurd (congrArg some (hother hg₁)) hfl₂
    · rcases Folding.of_concat hg₂ with hg₂ | ⟨rfl, -⟩
      · cases he₁
        exact absurd (congrArg some (hother hg₂)) hfl₁
      · rfl
  · rcases Folding.of_concat hg with hg | ⟨rfl, he⟩
    · have hne : g ≠ s.frames.size := Nat.ne_of_lt (h.size ▸ (List.getElem?_eq_some_iff.mp hg).1)
      obtain ⟨hlink', hget'⟩ := hold k (h.image hg)
      refine (h.frame hg).congr hle ?_ hlink' (fun x hx _ => ?_) fun x _ hx => ?_
      · rw [enclosing?_newFrame, if_neg hne]
      · rw [get?_newFrame, if_neg hne, hx]
      · rw [get?_newFrame, if_neg hne, hget']
        exact hlater _ _ hx
    · cases he
      rw [h.size]
      exact hnew
  · have hmono := h.instances.mono (fun _ _ hg => hg.later hle) fun _ _ hg => hg.later hle
    have hclass (i : InstanceId) : t'.class? i = s'.class? i := by
      rw [Store.class?, Store.class?, hinstances]
    have hfield (i : InstanceId) (x : String) : t'.field? i x = s'.field? i x := by
      rw [Store.field?, Store.field?, hinstances]
    exact ⟨hinstances ▸ hmono.size, fun i => hclass i ▸ hmono.cls i,
      fun i x => hfield i x ▸ hmono.field i x⟩

/-- A new frame in both runs. -/
theorem newFrame (h : s.Folds R G Φ s') (hf : Φ[f]? = some (f', fl)) {bs bs' : Bindings}
    (hbs : bs.Alike (Value.Folds R G Φ) bs') :
    (s.newFrame bs (some f)).2.Folds R G (Φ ++ [(s'.frames.size, false :: fl)])
      (s'.newFrame bs' (some f')).2 := by
  have hle : Φ <+: Φ ++ [(s'.frames.size, false :: fl)] := List.prefix_append _ _
  refine h.concat hf bs (by simp) (fun g hg => ?_) (fun g o hg => ?_) rfl (by simp)
    (.inr (Nat.le_refl _)) (.kept ?_ ?_ (Folding.later hf hle) fun x => ?_)
  · refine ⟨?_, funext fun x => ?_⟩
    · rw [enclosing?_newFrame, if_neg (Nat.ne_of_lt hg)]
    · rw [get?_newFrame, if_neg (Nat.ne_of_lt hg)]
  · rw [enclosing?_newFrame] at hg
    split_ifs at hg with heq
    · cases hg
      exact heq ▸ h.image hf
    · exact h.links' g o hg
  · rw [enclosing?_newFrame, if_pos rfl]
  · rw [enclosing?_newFrame, if_pos rfl]
  · rw [get?_newFrame, get?_newFrame, if_pos rfl, if_pos rfl]
    exact relOption_imp (fun _ _ hv => Value.Folds.later hv hle) (hbs x)

/-- A new frame in the first run only: it is folded. -/
theorem fold (h : s.Folds R G Φ s') (hf : Φ[f]? = some (f', fl)) :
    (s.newFrame [] (some f)).2.Folds R G (Φ ++ [(f', true :: fl)]) s' := by
  have hle : Φ <+: Φ ++ [(f', true :: fl)] := List.prefix_append _ _
  refine h.concat hf [] (Nat.le_refl _) (fun _ _ => ⟨rfl, rfl⟩) h.links' rfl (h.image hf) (.inl rfl)
    (.folded ?_ (Folding.later hf hle) fun x => ?_)
  · rw [enclosing?_newFrame, if_pos rfl]
  · rw [get?_newFrame, if_pos rfl]
    rfl

theorem newInstance (h : s.Folds R G Φ s') {c c' : Class} (hc : c.Folds R G Φ c') :
    (s.newInstance c).2.Folds R G Φ (s'.newInstance c').2 :=
  ⟨h.size, h.root, h.links, h.links', h.image, h.single,
    fun hf => (h.frame hf).congr (List.prefix_refl Φ) rfl rfl (fun _ hx _ => hx) fun _ _ hx => hx,
    h.instances.newInstance hc⟩

theorem setField (h : s.Folds R G Φ s') (i : InstanceId) (x : String) {v v' : Value}
    (hv : v.Folds R G Φ v') : (s.setField i x v).Folds R G Φ (s'.setField i x v') :=
  ⟨h.size, h.root, h.links, h.links', h.image, h.single,
    fun hf => (h.frame hf).congr (List.prefix_refl Φ) rfl rfl (fun _ hx _ => hx) fun _ _ hx => hx,
    h.instances.setField i x hv⟩

/-- More may be known of references. -/
theorem mono {G' : Guide} (hG : G.Within G') (h : s.Folds R G Φ s') : s.Folds R G' Φ s' := by
  have hmono {inner : List Bool} (f f' : Function) (hf : f.Folds R G Φ inner f') :
      f.Folds R G' Φ inner f' := hf.mono hG
  exact ⟨h.size, h.root, h.links, h.links', h.image, h.single,
    fun hf => (h.frame hf).congr (List.prefix_refl Φ) rfl rfl (fun _ hx _ => hx) fun _ _ hx =>
      relOption_imp (fun _ _ hv => hv.mono hmono hmono) hx,
    h.instances.mono hmono hmono⟩

/-- The stores before anything has run. -/
theorem initial (R : Reading) (G : Guide) :
    Store.initial.Folds R G [(Store.global, [])] Store.initial := by
  have hlink (f : FrameId) : Store.initial.enclosing? f = none := by
    cases f <;> rfl
  have honly {f : FrameId} {p : FrameId × List Bool}
      (hf : [(Store.global, ([] : List Bool))][f]? = some p) :
      f = Store.global ∧ p = (Store.global, []) := by
    rw [List.getElem?_singleton] at hf
    split_ifs at hf with h0
    exact ⟨h0, (Option.some.inj hf).symm⟩
  refine ⟨rfl, rfl, fun f g hf => ?_, fun f g hf => ?_, fun hf => ?_, fun hf _ hg _ => ?_,
    fun hf => ?_, ⟨rfl, fun _ => .none, fun _ _ => .none⟩⟩
  · rw [hlink] at hf
    cases hf
  · rw [hlink] at hf
    cases hf
  · obtain ⟨-, he⟩ := honly hf
    cases he
    exact Nat.one_pos
  · exact (honly hf).1.trans (honly hg).1.symm
  · obtain ⟨rfl, he⟩ := honly hf
    cases he
    exact .outermost (hlink _) (hlink _) (Bindings.alike_initial _ _)

end Store.Folds

end Scriptlet
