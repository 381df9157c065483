import Scriptlet.Proofs.Scope.Visit
import Scriptlet.Proofs.Run.Method

/-!
# Frames and the scopes they stand for

The invariant of a running program. While a part of a program runs, the frames from the current one
outwards stand for the scopes that were open when the walk came to that part (`Matches`): one frame
for each scope, every name that could be read there bound, and the global frame around them all.
What makes this survive is that every value in the store keeps its own promise (`ValueFits`): a
function was declared at some visit of a program, and the frame it was made in matches the scopes of
that visit.

In a class there is more to it: a part of a method runs in frames inside the one in which the method was
bound to its receiver (`Activation.Runs`), and the class of the method is one of the receiver's.

A `Layout` says for each frame which names it may ever bind, so that all visits that share a frame
agree on them.

Results:
* `Matches.ancestor`, `Matches.ancestor_eq_global_iff`: the frames found along the links.
* `Home.stay`, `Home.enter`: from part to part a program stays in the body of its method.
* `HeapFits`: the invariant of the store, with one lemma for each operation that preserves it.
-/

namespace Scriptlet.Run

open Scope

/-- For every frame, the names it may ever bind. Nothing is said of the global one. -/
abbrev Layout := List (List String)

/-- A part of one of the programs. -/
def Known (P : List Stmt → Prop) (v : Visit) : Prop := ∃ program, P program ∧ Visits program v

theorem Known.step {P : List Stmt → Prop} {v w : Visit} (h : Known P v) (hstep : Step v w) :
    Known P w := by
  obtain ⟨program, hprogram, hv⟩ := h
  exact ⟨program, hprogram, hv.tail hstep⟩

/-! ## Matching frames -/

/-- **The frames from `f` outwards stand for the scopes**, innermost first, which declare the given
names in all. -/
inductive Matches (Λ : Layout) (st : Store) : FrameId → List Names → List (List String) → Prop
  | global : Matches Λ st Store.global [] []
  | frame {f g scope rest names declared} (layout : Λ[f]? = some names)
      (bound : ∀ x, scope.lookup x = some true → (st.get? f x).isSome = true)
      (link : st.enclosing? f = some g) (outer : Matches Λ st g rest declared) :
      Matches Λ st f (scope :: rest) (names :: declared)

namespace Matches

variable {Λ Λ' : Layout} {st st' : Store} {f : FrameId} {scopes : List Names}
  {declared : List (List String)}

/-- Matching frames match for ever. -/
theorem later (h : Matches Λ st f scopes declared) (hst : st.Later st') (hΛ : Λ <+: Λ') :
    Matches Λ' st' f scopes declared := by
  induction h with
  | global => exact .global
  | frame layout bound link _ ih =>
    refine .frame ?_ (fun x hx => hst.bound _ x (bound x hx)) (hst.enclosing _ _ link) ih
    obtain ⟨hlt, -⟩ := List.getElem?_eq_some_iff.mp layout
    rw [← layout, List.prefix_iff_getElem?.mp hΛ _ hlt, List.getElem?_eq_getElem hlt]

theorem lt (h : Matches Λ st f scopes declared) (hroot : 0 < st.frames.size) :
    f < st.frames.size := by
  cases h with
  | global => exact hroot
  | frame _ _ link _ => exact Store.enclosing?_lt link

/-- **The frame so many links outwards matches the scopes without the inner ones.** -/
theorem ancestor (h : Matches Λ st f scopes declared) (d : Nat) (hd : d ≤ scopes.length) :
    ∃ g, st.ancestor f d = some g ∧ Matches Λ st g (scopes.drop d) (declared.drop d) := by
  induction d generalizing f scopes declared with
  | zero => exact ⟨f, rfl, h⟩
  | succ d ih =>
    cases h with
    | global => cases hd
    | frame _ _ link outer =>
      rw [Store.ancestor_succ link]
      exact ih outer (Nat.le_of_succ_le_succ hd)

/-- The frame that stands for one of the scopes: what may be bound in it, and what is. -/
theorem at_distance (h : Matches Λ st f scopes declared) {d : Nat} {scope : Names}
    (hscope : scopes[d]? = some scope) :
    ∃ g names, st.ancestor f d = some g ∧ declared[d]? = some names ∧ Λ[g]? = some names ∧
      ∀ x, scope.lookup x = some true → (st.get? g x).isSome = true := by
  obtain ⟨hlt, -⟩ := List.getElem?_eq_some_iff.mp hscope
  obtain ⟨g, hg, hmatches⟩ := h.ancestor d (Nat.le_of_lt hlt)
  rw [List.drop_eq_getElem?_toList_append, hscope] at hmatches
  generalize hns : declared.drop d = ns at hmatches
  cases hmatches with
  | @frame _ _ _ _ names _ layout bound _ _ =>
    refine ⟨g, names, hg, ?_, layout, bound⟩
    rw [← List.head?_drop, hns]
    rfl

/-- A name that is bound may be made readable. -/
theorem introduce {s : State} {name : Token} (h : Matches Λ st f s.scopes declared)
    (hbound : (st.get? f name.lexeme).isSome = true) :
    Matches Λ st f (s.introduce name).scopes declared := by
  rcases introduce_cases s name with ⟨hs, h'⟩ | ⟨scope, scope', rest, hs, h', hlookup⟩
  · rw [h', ← hs]
    exact h
  · rw [hs] at h
    rw [h']
    cases h with
    | frame layout bound link outer =>
      refine .frame layout (fun x hx => ?_) link outer
      rw [hlookup] at hx
      split_ifs at hx with hxn
      · rw [hxn]
        exact hbound
      · exact bound x hx

/-- A name may be declared before it is bound. -/
theorem declare {s : State} {name : Token} (h : Matches Λ st f s.scopes declared) :
    Matches Λ st f (s.declare name).scopes declared := by
  rcases declare_cases s name with ⟨hs, h'⟩ | ⟨scope, scope', rest, hs, h', -, -, hlookup⟩
  · rw [h', ← hs]
    exact h
  · rw [hs] at h
    rw [h']
    cases h with
    | frame layout bound link outer =>
      exact .frame layout (fun x hx => bound x (hlookup x hx)) link outer

end Matches

/-! ## Methods that run -/

/-- **The method belongs to a class that a declaration has made**, and the visit is that of the method in
the declaration. -/
structure Belongs (P : List Stmt → Prop) (st : Store) (decl : ClassDecl) (K : Class)
    (method : Function) (w : Visit) : Prop where
  made : Made st decl K
  mem : method ∈ K.methods
  part : ∃ v, Known P v ∧ v.code = .stmt (.classDecl decl) ∧ Relation.ReflTransGen Step v w
  code : ∃ context, w.code = .function context method.decl
  this : w.state.scopes.head? = some [("this", true)]
  names : w.declared.head? = some ["this"]
  classes : w.state.classes = classContext decl.superclass

/-- A method of a class that a declaration has made, and the function that came about by binding the
method to a receiver. -/
structure Activation where
  decl : ClassDecl
  cls : Class
  method : Function
  receiver : InstanceId
  bound : Function

/-- **The part runs in the body of the bound method**, from the frame `f`: it is a part of the method's
declaration, and as many links lead to the frame of the receiver as there are scopes in between. The
class of the method is that of the receiver or one of its superclasses. -/
structure Activation.Runs (A : Activation) (P : List Stmt → Prop) (st : Store) (f : FrameId)
    (v : Visit) : Prop where
  part : ∃ w d, Belongs P st A.decl A.cls A.method w ∧ Relation.ReflTransGen Step w v ∧
    distanceIn v.state.scopes "this" = some d ∧
    v.state.scopes.length = d + w.state.scopes.length ∧ st.ancestor f d = some A.bound.frame
  classes : v.state.classes = classContext A.decl.superclass
  bound : Bound st A.method A.receiver A.bound
  chain : ∃ C, st.class? A.receiver = some C ∧ A.cls ∈ C.chain

/-- Where there is a `this`, the part runs in the body of some bound method. -/
def Home (P : List Stmt → Prop) (st : Store) (f : FrameId) (v : Visit) : Prop :=
  distanceIn v.state.scopes "this" ≠ none → ∃ A : Activation, A.Runs P st f v

section
variable {P P' : List Stmt → Prop} {st st' : Store} {f f' : FrameId} {v w : Visit}

theorem Known.mono (hP : ∀ program, P program → P' program) (h : Known P v) : Known P' v := by
  obtain ⟨program, hprogram, hv⟩ := h
  exact ⟨program, hP program hprogram, hv⟩

theorem Belongs.later {decl : ClassDecl} {K : Class} {method : Function}
    (h : Belongs P st decl K method w) (hP : ∀ program, P program → P' program)
    (hst : st.Later st') : Belongs P' st' decl K method w := by
  obtain ⟨v, hknown, hcode, hpart⟩ := h.part
  exact { h with made := h.made.later hst, part := ⟨v, hknown.mono hP, hcode, hpart⟩ }

theorem Belongs.known {decl : ClassDecl} {K : Class} {method : Function}
    (h : Belongs P st decl K method w) : Known P w := by
  obtain ⟨v, ⟨program, hprogram, hv⟩, -, hpart⟩ := h.part
  exact ⟨program, hprogram, hv.trans hpart⟩

theorem Activation.Runs.later {A : Activation} (h : A.Runs P st f v)
    (hP : ∀ program, P program → P' program) (hst : st.Later st') : A.Runs P' st' f v := by
  obtain ⟨w, d, hbelongs, hpart, hd, hdepth, hframe⟩ := h.part
  obtain ⟨C, hC, hchain⟩ := h.chain
  exact ⟨⟨w, d, hbelongs.later hP hst, hpart, hd, hdepth, hst.ancestor hframe⟩, h.classes,
    h.bound.later hst, C, hst.cls _ _ hC, hchain⟩

/-- A function runs the body of the method that was bound. -/
theorem Belongs.runs {A : Activation} (h : Belongs P st A.decl A.cls A.method w)
    (hbound : Bound st A.method A.receiver A.bound)
    (hchain : ∃ C, st.class? A.receiver = some C ∧ A.cls ∈ C.chain) :
    A.Runs P st A.bound.frame w := by
  refine ⟨⟨w, 0, h, .refl, ?_, (Nat.zero_add _).symm, rfl⟩, h.classes, hbound, hchain⟩
  obtain ⟨rest, hrest⟩ := List.head?_eq_some_iff.mp h.this
  rw [hrest, distanceIn_cons, if_pos]
  rfl

theorem Home.later (h : Home P st f v) (hP : ∀ program, P program → P' program)
    (hst : st.Later st') : Home P' st' f v := by
  intro hthis
  obtain ⟨A, hA⟩ := h hthis
  exact ⟨A, hA.later hP hst⟩

/-- A part in the same scopes runs in the same body. -/
theorem Home.stay (h : Home P st f v) (hstep : Step v w) (hv : v.code.Proper)
    (hdeclared : w.declared = v.declared) : Home P st f w := by
  obtain ⟨hthis, hlength, hclasses⟩ := hstep.same_class hv hdeclared
  intro hw
  obtain ⟨A, hA⟩ := h (hthis ▸ hw)
  obtain ⟨u, d, hbelongs, hpart, hd, hdepth, hframe⟩ := hA.part
  exact ⟨A, ⟨u, d, hbelongs, hpart.tail hstep, hthis.trans hd, hlength.trans hdepth, hframe⟩,
    hclasses.trans hA.classes, hA.bound, hA.chain⟩

/-- **So does a part with a scope of its own**, in a frame of its own. -/
theorem Home.enter (h : Home P st f v) (hstep : Step v w) {scope : Names} (hplain : Plain scope)
    (hscopes : w.state.scopes = scope :: v.state.scopes)
    (hclasses : w.state.classes = v.state.classes) (hst : st.Later st')
    (hlink : st'.enclosing? f' = some f) : Home P st' f' w := by
  have hthis : distanceIn w.state.scopes "this" =
      (distanceIn v.state.scopes "this").map (· + 1) := by
    rw [hscopes, distanceIn_cons, hplain.this]
    rfl
  intro hw
  obtain ⟨A, hA⟩ := h fun hnone => hw (by rw [hthis, hnone]; rfl)
  obtain ⟨u, d, hbelongs, hpart, hd, hdepth, hframe⟩ := (hA.later (fun _ hp => hp) hst).part
  refine ⟨A, ⟨u, d + 1, hbelongs, hpart.tail hstep, by rw [hthis, hd]; rfl, ?_, ?_⟩,
    hclasses.trans hA.classes, hA.bound.later hst, (hA.later (fun _ hp => hp) hst).chain⟩
  · rw [hscopes, List.length_cons, hdepth]
    omega
  · rw [Store.ancestor_succ hlink]
    exact hframe

end

/-! ## Values -/

section
variable (P : List Stmt → Prop) (Λ : Layout) (st : Store)

/-- The function was declared at a visit whose scopes the frame matches in which it was made. -/
def FunctionFits (fn : Function) : Prop :=
  ∃ context s declared, Known P ⟨.function context fn.decl, s, declared⟩ ∧
    Matches Λ st fn.frame s.scopes declared ∧
    Home P st fn.frame ⟨.function context fn.decl, s, declared⟩

/-- The same of a method of a class, whose frame matches the scopes around that of `this`. -/
def MethodFits (K : Class) (fn : Function) : Prop :=
  ∃ decl w, Belongs P st decl K fn w ∧ Matches Λ st fn.frame w.state.scopes.tail w.declared.tail

/-- All the methods of a class, those of its superclasses included, fit. -/
def ClassFits (c : Class) : Prop := ∀ K ∈ c.chain, ∀ fn ∈ K.methods, MethodFits P Λ st K fn

def ValueFits : Value → Prop
  | .function fn => FunctionFits P Λ st fn
  | .cls c => ClassFits P Λ st c
  | _ => True

end

section
variable {P P' : List Stmt → Prop} {Λ Λ' : Layout} {st st' : Store}

theorem ClassFits.later {c : Class} (h : ClassFits P Λ st c)
    (hP : ∀ program, P program → P' program) (hst : st.Later st') (hΛ : Λ <+: Λ') :
    ClassFits P' Λ' st' c := by
  intro K hK fn hfn
  obtain ⟨decl, w, hbelongs, hmatches⟩ := h K hK fn hfn
  exact ⟨decl, w, hbelongs.later hP hst, hmatches.later hst hΛ⟩

/-- **A value that fits once fits for ever.** -/
theorem ValueFits.later {v : Value} (h : ValueFits P Λ st v)
    (hP : ∀ program, P program → P' program) (hst : st.Later st') (hΛ : Λ <+: Λ') :
    ValueFits P' Λ' st' v := by
  cases v with
  | function fn =>
    obtain ⟨context, s, declared, hknown, hmatches, hhome⟩ := h
    exact ⟨context, s, declared, hknown.mono hP, hmatches.later hst hΛ, hhome.later hP hst⟩
  | cls c => exact ClassFits.later h hP hst hΛ
  | _ => trivial

/-- The method a class finds is that of a class in its chain, and fits. -/
theorem ClassFits.findMethod {name : String} {fn : Function} {c : Class} (h : ClassFits P Λ st c)
    (hfn : c.findMethod name = some fn) : ∃ K ∈ c.chain, MethodFits P Λ st K fn := by
  obtain ⟨K, hK, hmem⟩ := Class.exists_of_findMethod hfn
  exact ⟨K, hK, h K hK fn hmem⟩

end

/-! ## The store -/

/-- A value that may be bound to a name: `this` is always an instance and `super` a class. -/
structure Bindable (P : List Stmt → Prop) (Λ : Layout) (st : Store) (x : String) (v : Value) :
    Prop where
  fits : ValueFits P Λ st v
  this : x = "this" → ∃ i, v = .object i
  super : x = "super" → ∃ c, v = .cls c

theorem later_define {name : Token} (hname : name.IsName) (f : FrameId) (v : Value) (st : Store) :
    st.Later (st.define f name.lexeme v) :=
  Store.later_define f v st hname.ne_this hname.ne_super

/-- Any value that fits may be bound to a name that is no keyword. -/
theorem bindable_of_isName {P : List Stmt → Prop} {Λ : Layout} {st : Store} {name : Token}
    {v : Value} (h : name.IsName) (hv : ValueFits P Λ st v) : Bindable P Λ st name.lexeme v :=
  ⟨hv, fun hx => absurd hx h.ne_this, fun hx => absurd hx h.ne_super⟩

theorem Bindable.later {P P' : List Stmt → Prop} {Λ Λ' : Layout} {st st' : Store} {x : String}
    {v : Value} (h : Bindable P Λ st x v) (hP : ∀ program, P program → P' program)
    (hst : st.Later st') (hΛ : Λ <+: Λ') : Bindable P' Λ' st' x v :=
  ⟨h.fits.later hP hst hΛ, h.this, h.super⟩

/-- **The invariant of the store.** -/
structure HeapFits (P : List Stmt → Prop) (Λ : Layout) (st : Store) : Prop where
  size : Λ.length = st.frames.size
  root : 0 < st.frames.size
  outermost : st.enclosing? Store.global = none
  links (f g : FrameId) : st.enclosing? f = some g → g < f
  names (f : FrameId) (names : List String) : f ≠ Store.global → Λ[f]? = some names →
    ∀ x, (st.get? f x).isSome = true → x ∈ names
  bindings (f : FrameId) (x : String) (v : Value) : st.get? f x = some v → Bindable P Λ st x v
  fields (i : InstanceId) (x : String) (v : Value) : st.field? i x = some v → ValueFits P Λ st v
  classes (i : InstanceId) (c : Class) : st.class? i = some c → ClassFits P Λ st c

namespace HeapFits

variable {P P' : List Stmt → Prop} {Λ : Layout} {st : Store}

/-- More programs may become known. -/
theorem mono (h : HeapFits P Λ st) (hP : ∀ program, P program → P' program) :
    HeapFits P' Λ st where
  size := h.size
  root := h.root
  outermost := h.outermost
  links := h.links
  names := h.names
  bindings f x v hv := (h.bindings f x v hv).later hP (.refl st) (List.prefix_refl Λ)
  fields i x v hv := (h.fields i x v hv).later hP (.refl st) (List.prefix_refl Λ)
  classes i c hc := (h.classes i c hc).later hP (.refl st) (List.prefix_refl Λ)

/-- A frame may bind a name of its own. A function refers to its own name, so the value need only
fit once the name is bound. -/
theorem define (h : HeapFits P Λ st) {f : FrameId} {name : Token} {v : Value} (hname : name.IsName)
    (hx : f ≠ Store.global → ∀ names, Λ[f]? = some names → name.lexeme ∈ names)
    (hv : ValueFits P Λ (st.define f name.lexeme v) v) :
    HeapFits P Λ (st.define f name.lexeme v) := by
  have hlater := later_define hname f v st
  have hΛ := List.prefix_refl Λ
  refine ⟨?_, ?_, ?_, ?_, fun g names hg hnames y hy => ?_, fun g y w hw => ?_, fun i y w hw => ?_,
    fun i c hc => ?_⟩
  · rw [Store.size_define, h.size]
  · rw [Store.size_define]
    exact h.root
  · rw [Store.enclosing?_define, h.outermost]
  · intro g e he
    rw [Store.enclosing?_define] at he
    exact h.links g e he
  · rw [Store.get?_define] at hy
    split_ifs at hy with hdef
    · obtain ⟨rfl, rfl, -⟩ := hdef
      exact hx hg names hnames
    · exact h.names g names hg hnames y hy
  · rw [Store.get?_define] at hw
    split_ifs at hw with hdef
    · obtain ⟨rfl, rfl, -⟩ := hdef
      cases hw
      exact bindable_of_isName hname hv
    · exact (h.bindings g y w hw).later (fun _ hp => hp) hlater hΛ
  · exact (h.fields i y w hw).later (fun _ hp => hp) hlater hΛ
  · exact (h.classes i c hc).later (fun _ hp => hp) hlater hΛ

/-- A name that is bound may be bound anew. -/
theorem overwrite (h : HeapFits P Λ st) {f : FrameId} {name : Token} {v : Value}
    (hname : name.IsName) (hx : (st.get? f name.lexeme).isSome = true) (hv : ValueFits P Λ st v) :
    HeapFits P Λ (st.define f name.lexeme v) := by
  refine h.define hname (fun hf names hnames => h.names f names hf hnames name.lexeme hx) ?_
  exact hv.later (fun _ hp => hp) (later_define hname f v st) (List.prefix_refl Λ)

/-- A frame may be added inside another one. -/
theorem newFrame (h : HeapFits P Λ st) {bs : Bindings} {e : FrameId} {names : List String}
    (he : e < st.frames.size)
    (hbs : ∀ x v, bs.get? x = some v → x ∈ names ∧ Bindable P Λ st x v) :
    HeapFits P (Λ ++ [names]) (st.newFrame bs (some e)).2 := by
  have hlater := Store.later_newFrame bs (some e) st
  have hΛ : Λ <+: Λ ++ [names] := List.prefix_append _ _
  refine ⟨?_, ?_, ?_, fun f g hg => ?_, fun f ns hf hns x hx => ?_, fun f x v hv => ?_,
    fun i y w hw => ?_, fun i c hc => ?_⟩
  · rw [Store.size_newFrame, List.length_append, h.size, List.length_singleton]
  · rw [Store.size_newFrame]
    exact Nat.succ_pos _
  · have hglobal : Store.global ≠ st.frames.size := Nat.ne_of_lt h.root
    rw [Store.enclosing?_newFrame, if_neg hglobal, h.outermost]
  · rw [Store.enclosing?_newFrame] at hg
    split_ifs at hg with hf
    · cases hg
      rw [hf]
      exact he
    · exact h.links f g hg
  · rw [Store.get?_newFrame] at hx
    split_ifs at hx with hnew
    · rw [hnew, ← h.size, List.getElem?_concat_length] at hns
      cases hns
      obtain ⟨v, hv⟩ := Option.isSome_iff_exists.mp hx
      exact (hbs x v hv).1
    · rw [List.getElem?_append_left (h.size ▸ Store.get?_lt hx)] at hns
      exact h.names f ns hf hns x hx
  · rw [Store.get?_newFrame] at hv
    split_ifs at hv with hnew
    · exact (hbs x v hv).2.later (fun _ hp => hp) hlater hΛ
    · exact (h.bindings f x v hv).later (fun _ hp => hp) hlater hΛ
  · exact (h.fields i y w hw).later (fun _ hp => hp) hlater hΛ
  · exact (h.classes i c hc).later (fun _ hp => hp) hlater hΛ

/-- Instances may change in any way that fits. -/
theorem instances (h : HeapFits P Λ st) {st' : Store} (hframes : st'.frames = st.frames)
    (hlater : st.Later st')
    (hfields : ∀ i x v, st'.field? i x = some v → ValueFits P Λ st v)
    (hclasses : ∀ i c, st'.class? i = some c → ClassFits P Λ st c) : HeapFits P Λ st' := by
  have hΛ := List.prefix_refl Λ
  have hget (f : FrameId) (x : String) : st'.get? f x = st.get? f x := by
    unfold Store.get?
    rw [hframes]
  have hlink (f : FrameId) : st'.enclosing? f = st.enclosing? f := by
    unfold Store.enclosing?
    rw [hframes]
  refine ⟨by rw [hframes, h.size], by rw [hframes]; exact h.root, by rw [hlink, h.outermost],
    fun f g hg => h.links f g (by rw [← hlink, hg]), fun f names hf hnames x hx => ?_,
    fun f x v hv => ?_, fun i x v hv => ?_, fun i c hc => ?_⟩
  · exact h.names f names hf hnames x (by rw [← hget, hx])
  · exact (h.bindings f x v (by rw [← hget, hv])).later (fun _ hp => hp) hlater hΛ
  · exact (hfields i x v hv).later (fun _ hp => hp) hlater hΛ
  · exact (hclasses i c hc).later (fun _ hp => hp) hlater hΛ

theorem newInstance (h : HeapFits P Λ st) {c : Class} (hc : ClassFits P Λ st c) :
    HeapFits P Λ (st.newInstance c).2 := by
  refine h.instances rfl (Store.later_newInstance c st) (fun i x v hv => ?_) (fun i d hd => ?_)
  · simp only [Store.field?, Store.newInstance, Array.getElem?_push] at hv
    split_ifs at hv
    · cases hv
    · exact h.fields i x v hv
  · rw [Store.class?_newInstance] at hd
    split_ifs at hd
    · cases hd
      exact hc
    · exact h.classes i d hd

theorem setField (h : HeapFits P Λ st) {i : InstanceId} {x : String} {v : Value}
    (hv : ValueFits P Λ st v) : HeapFits P Λ (st.setField i x v) := by
  refine h.instances rfl (Store.later_setField i x v st) (fun j y w hw => ?_) (fun j d hd => ?_)
  · simp only [Store.field?, Store.setField, Array.getElem?_modify] at hw
    split_ifs at hw with hij
    · obtain ⟨object, hobject, hw⟩ := Option.bind_eq_some_iff.mp hw
      obtain ⟨object', hobject', rfl⟩ := Option.map_eq_some_iff.mp hobject
      rw [Bindings.get?_set] at hw
      split_ifs at hw
      · cases hw
        exact hv
      · refine h.fields j y w ?_
        rw [Store.field?, hobject']
        exact hw
    · exact h.fields j y w hw
  · rw [Store.class?_setField] at hd
    exact h.classes j d hd

end HeapFits

/-- **There are exactly as many links to the global frame as there are scopes.** -/
theorem Matches.ancestor_eq_global_iff {P : List Stmt → Prop} {Λ : Layout} {st : Store}
    {f : FrameId} {scopes : List Names} {declared : List (List String)}
    (h : Matches Λ st f scopes declared) (hst : HeapFits P Λ st) (k : Nat) :
    st.ancestor f k = some Store.global ↔ k = scopes.length := by
  induction h generalizing k with
  | global =>
    cases k with
    | zero => simp [Store.ancestor]
    | succ k => simp [Store.ancestor, hst.outermost]
  | @frame f g scope rest names declared layout bound link outer ih =>
    cases k with
    | zero =>
      have hlocal : f ≠ Store.global := by
        rintro rfl
        rw [hst.outermost] at link
        cases link
      simp [Store.ancestor, hlocal]
    | succ k =>
      rw [Store.ancestor_succ link, ih, List.length_cons]
      exact Nat.succ_inj.symm

end Scriptlet.Run
