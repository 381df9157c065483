import Scriptlet.Proofs.Run.Outcome

/-!
# The operations of the machine

What each operation does to the invariant of the store, and how it can end: one lemma for each of
them. Following a reference is where distances come in, so these lemmas ask for the visit the
machine is at.

Results:
* `At.ends_readRef`, `At.ends_writeRef`: references.
* `At.this_reads`, `At.super_reads`: **`this` and `super` are those of the method whose body runs.**
* `ends_bindMethod`, `ends_property`: methods and properties.
* `At.closing`, `At.ends_declareClass`: class declarations.
-/

namespace Scriptlet.Run

open Scope Exec

variable {W : World} {Λ Λ' : Layout} {m m' : Machine}

/-! ## Frames -/

theorem Follows.newFrame {bs : Bindings} {e : FrameId} {names : List String}
    (h : HeapFits W.programs Λ m.store) (he : e < m.store.frames.size)
    (hbs : ∀ x v, bs.get? x = some v → x ∈ names ∧ Bindable W.programs Λ m.store x v) :
    Follows W Λ m (Λ ++ [names]) { m with store := (m.store.newFrame bs (some e)).2 } :=
  .store (h.newFrame he hbs) (List.prefix_append _ _) (Store.later_newFrame _ _ _)

/-- **The new frame matches a scope inside those its enclosing frame matches.** -/
theorem matches_newFrame {bs : Bindings} {e : FrameId} {names : List String} {scope : Names}
    {scopes : List Names} {declared : List (List String)} (h : HeapFits W.programs Λ m.store)
    (he : Matches Λ m.store e scopes declared)
    (hbs : ∀ x, scope.lookup x = some true → (bs.get? x).isSome = true) :
    Matches (Λ ++ [names]) (m.store.newFrame bs (some e)).2 m.store.frames.size
      (scope :: scopes) (names :: declared) := by
  refine .frame ?_ (fun x hx => ?_) ?_
    (he.later (Store.later_newFrame _ _ _) (List.prefix_append _ _))
  · rw [← h.size, List.getElem?_concat_length]
  · rw [Store.get?_newFrame, if_pos rfl]
    exact hbs x hx
  · rw [Store.enclosing?_newFrame, if_pos rfl]

/-- Binding a name in the current frame. -/
theorem ends_define {name : Token} {v : Value} (h : HeapFits W.programs Λ m.store)
    (hname : name.IsName)
    (hx : m.current ≠ Store.global → ∀ names, Λ[m.current]? = some names → name.lexeme ∈ names)
    (hv : ValueFits W.programs Λ (m.store.define m.current name.lexeme v) v)
    (hcurrent : m.current < m.store.frames.size) :
    Ends W Λ m (Exec.define name.lexeme v m)
      (fun Λ' st _ => Λ' = Λ ∧ (st.get? m.current name.lexeme).isSome = true) := by
  refine ⟨Λ, .store (h.define hname hx hv) (List.prefix_refl Λ) (later_define hname _ _ _), rfl, ?_⟩
  show ((m.store.define m.current name.lexeme v).get? m.current name.lexeme).isSome = true
  rw [Store.get?_define, if_pos ⟨rfl, rfl, hcurrent⟩]
  rfl

/-- Binding anew a name that is bound. -/
theorem ends_assignFrom {f : FrameId} {name : Token} {v : Value}
    (h : HeapFits W.programs Λ m.store) (hname : name.IsName)
    (hv : ValueFits W.programs Λ m.store v)
    (hnone : m.store.owner? f name.lexeme = none → Benign W (.undefinedVariable name)) :
    Ends W Λ m (Exec.assignFrom f name v m) (fun _ _ _ => True) := by
  unfold Exec.assignFrom Exec.assignIn
  cases ho : m.store.owner? f name.lexeme with
  | none => exact .fault h (hnone ho)
  | some g =>
    refine ⟨Λ, .store (h.overwrite hname (Store.owner?_bound ho) hv) (List.prefix_refl Λ) ?_,
      trivial⟩
    exact later_define hname _ _ _

/-- The frame of a statement may bind what the statement declares. -/
theorem At.may_bind {v : Visit} (h : At W Λ m v) {x : String} (hx : x ∈ v.code.pending) :
    m.current ≠ Store.global → ∀ names, Λ[m.current]? = some names → x ∈ names := by
  intro hlocal names hnames
  have hpending := h.sound.pending x hx
  have hframes := h.frames
  generalize v.state.scopes = scopes at hframes
  generalize v.declared = declared at hpending hframes
  generalize m.current = f at hlocal hnames hframes
  cases hframes with
  | global => exact absurd rfl hlocal
  | frame layout =>
    rw [layout] at hnames
    cases hnames
    exact hpending _ rfl

/-! ## References -/

namespace At

variable {v : Visit} {ref : RefId} {name : Token}

/-- **A reference that is read.** -/
theorem ends_readRef (h : At W Λ m v) (href : Refers v.code ref name)
    (hread : v.state.isUnreadable name.lexeme = false) :
    Ends W Λ m (readRef (.byDistance W.distances) ref name m)
      (fun Λ' st => Bindable W.programs Λ' st name.lexeme) := by
  unfold readRef
  dsimp only
  have hdist := href.distance h.sound
  cases hd : W.distances[ref]? with
  | some d =>
    rw [hd] at hdist
    obtain ⟨a, ha, hbindable⟩ := h.reads hdist.symm hread
    dsimp only
    rw [ha]
    exact ⟨Λ, .refl h.heap, hbindable⟩
  | none =>
    refine .ofOption h.heap (fun a ha => ?_) fun _ => h.benign_undefined href hd
    obtain ⟨g, hg⟩ := Store.lookup_bound ha
    exact h.heap.bindings g _ a hg

/-- **A reference that is assigned to.** -/
theorem ends_writeRef {e : Expr} {value : Value} (h : At W Λ m v)
    (hcode : v.code = .expr (.assign ref name e)) (hv : ValueFits W.programs Λ m.store value) :
    Ends W Λ m (writeRef (.byDistance W.distances) ref name value m) (fun _ _ _ => True) := by
  have href : Refers v.code ref name := by
    rw [hcode]
    exact .assign
  have hname : name.IsName := by
    have := h.sound.proper
    rw [hcode] at this
    exact this.1
  unfold writeRef
  dsimp only
  cases hd : W.distances[ref]? with
  | none => exact ends_assignFrom h.heap hname hv fun _ => h.benign_undefined href hd
  | some d =>
    have hdist := href.distance h.sound
    rw [hd] at hdist
    obtain ⟨scope, hscope, hdeclared⟩ := distanceIn_eq_some hdist.symm
    obtain ⟨g, names, hg, hnames, hlayout, -⟩ := h.frames.at_distance hscope
    -- The scope declares the name, so the frame may bind it even where it does not yet.
    have hmem : name.lexeme ∈ names := h.sound.mem_declared hscope hnames hdeclared
    simp only [hg, Exec.assignIn]
    have hlater := later_define hname g value m.store
    refine ⟨Λ, .store (h.heap.define hname (fun _ names' h' => ?_) ?_) (List.prefix_refl Λ) hlater,
      trivial⟩
    · rw [hlayout] at h'
      cases h'
      exact hmem
    · exact hv.later (fun _ hp => hp) hlater (List.prefix_refl Λ)

/-- **`this` is the receiver of the method whose body runs.** -/
theorem this_reads {keyword : Token} (h : At W Λ m v) (hcode : v.code = .expr (.this ref keyword)) :
    ∃ A : Activation, A.Runs W.programs m.store m.current v ∧
      readRef (.byDistance W.distances) ref keyword m = .ok (.object A.receiver) m := by
  obtain ⟨code, s, ns⟩ := v
  subst hcode
  have hkeyword : keyword.lexeme = "this" := h.sound.proper
  obtain ⟨k, hd, hthis⟩ := h.sound.this
  rw [hkeyword] at hthis
  obtain ⟨A, hA⟩ := h.home (by simp [hthis])
  obtain ⟨w, d, -, -, hd', -, hframe⟩ := hA.part
  obtain rfl : k = d := Option.some.inj (hthis.symm.trans hd')
  refine ⟨A, hA, ?_⟩
  simp only [readRef, hd, Store.getAt, hframe, hkeyword, Option.bind_some, hA.bound.this,
    Exec.ofOption]

/-- **`super` is the superclass of the class whose method runs**, and `this` is found just inside it. -/
theorem super_reads {keyword method : Token} (h : At W Λ m v)
    (hcode : v.code = .expr (.super ref keyword method)) :
    ∃ (A : Activation) (parent : Class), A.Runs W.programs m.store m.current v ∧
      A.cls.superclass = some parent ∧
      readSuper (.byDistance W.distances) ref keyword m = .ok (.cls parent) m ∧
      readReceiver (.byDistance W.distances) ref keyword m = .ok (.object A.receiver) m ∧
      ClassFits W.programs Λ m.store parent := by
  obtain ⟨code, s, ns⟩ := v
  subst hcode
  have hkeyword : keyword.lexeme = "super" := h.sound.proper.1
  obtain ⟨k, hd, -, hthis⟩ := h.sound.super
  obtain ⟨A, hA⟩ := h.home (by simp [hthis])
  obtain ⟨w, d, hbelongs, -, hd', -, hframe⟩ := hA.part
  obtain rfl : k = d := Option.some.inj (hthis.symm.trans hd')
  -- The class is declared with a superclass, so it was made with one.
  have hderived : classContext A.decl.superclass = .derived := hA.classes.symm.trans h.sound.derived
  have hsome : A.cls.superclass.isSome = true := by
    rw [hbelongs.made.isSome_superclass]
    cases hs : A.decl.superclass with
    | none =>
      rw [hs] at hderived
      cases hderived
    | some _ => rfl
  obtain ⟨parent, hparent⟩ := Option.isSome_iff_exists.mp hsome
  have hsuper := hbelongs.made.super hbelongs.mem hparent
  have houter : m.store.ancestor m.current (k + 1) = some A.method.frame :=
    Store.ancestor_add_one hframe hA.bound.enclosing
  refine ⟨A, parent, hA, hparent, ?_, ?_, (h.heap.bindings _ _ _ hsuper).fits⟩
  · simp only [readSuper, hd, Store.getAt, houter, hkeyword, Option.bind_some, hsuper,
      Exec.ofOption]
  · simp only [readReceiver, thisToken, hd, Nat.add_sub_cancel, Store.getAt, hframe,
      Option.bind_some, hA.bound.this, Exec.ofOption]

end At

/-! ## Methods and properties -/

/-- **A method with its receiver fits as a function**, if the receiver is an instance of its class or of
one below it. -/
theorem ends_bindMethod {fn : Function} {K C : Class} {receiver : InstanceId}
    (h : HeapFits W.programs Λ m.store) (hfn : MethodFits W.programs Λ m.store K fn)
    (hreceiver : m.store.class? receiver = some C) (hchain : K ∈ C.chain) :
    Ends W Λ m (bindMethod fn receiver m)
      (fun Λ' st bound => bound.decl = fn.decl ∧ FunctionFits W.programs Λ' st bound) := by
  obtain ⟨decl, ⟨code, s, declared⟩, hbelongs, hmatches⟩ := hfn
  obtain ⟨context, rfl⟩ := hbelongs.code
  obtain ⟨rest, hscopes⟩ := List.head?_eq_some_iff.mp hbelongs.this
  obtain ⟨names, hnames⟩ := List.head?_eq_some_iff.mp hbelongs.names
  dsimp only at hscopes hnames hmatches
  subst hnames
  rw [hscopes] at hmatches
  have hbs : ∀ x v, Bindings.get? [("this", .object receiver)] x = some v →
      x ∈ ["this"] ∧ Bindable W.programs Λ m.store x v := by
    intro x v hv
    rw [Bindings.get?_cons] at hv
    split_ifs at hv with hx
    · cases hv
      exact ⟨List.mem_singleton.mpr hx, trivial, fun _ => ⟨receiver, rfl⟩, fun h' => by simp_all⟩
    · cases hv
  have hfollows := Follows.newFrame h (hmatches.lt h.root) hbs
  have hlater : m.store.Later (m.store.newFrame [("this", .object receiver)] (some fn.frame)).2 :=
    hfollows.later
  have hbound : Bound (m.store.newFrame [("this", .object receiver)] (some fn.frame)).2 fn receiver
      ⟨m.nextId, fn.decl, m.store.frames.size⟩ := ⟨m, _, rfl, .refl _⟩
  have hruns := (hbelongs.later (fun _ hp => hp) hlater).runs
    (A := ⟨decl, K, fn, receiver, ⟨m.nextId, fn.decl, m.store.frames.size⟩⟩) hbound
    ⟨C, hlater.cls _ _ hreceiver, hchain⟩
  refine ⟨_, ⟨hfollows.heap, hfollows.layout, hfollows.later, rfl, hfollows.output, rfl⟩, rfl,
    context, s, _, hbelongs.known, ?_, fun _ => ⟨_, hruns⟩⟩
  rw [hscopes]
  refine matches_newFrame h hmatches fun x hx => ?_
  rw [lookup_cons] at hx
  rw [Bindings.get?_cons]
  split_ifs at hx ⊢
  · rfl
  · cases hx

theorem ends_boundMethod {fn : Function} {K C : Class} {receiver : InstanceId}
    (h : HeapFits W.programs Λ m.store) (hfn : MethodFits W.programs Λ m.store K fn)
    (hreceiver : m.store.class? receiver = some C) (hchain : K ∈ C.chain) :
    Ends W Λ m ((Value.function <$> bindMethod fn receiver) m) (ValueFits W.programs) :=
  (ends_bindMethod h hfn hreceiver hchain).map fun _ _ _ hq => hq.2

theorem At.ends_superMethod {v : Visit} {ref : RefId} {keyword method : Token} (h : At W Λ m v)
    (hcode : v.code = .expr (.super ref keyword method)) :
    Ends W Λ m (superMethod (.byDistance W.distances) ref keyword method m)
      (ValueFits W.programs) := by
  obtain ⟨A, parent, hA, hparent, hsuper, hreceiver, hfits⟩ := h.super_reads hcode
  unfold superMethod
  rw [bind_of_ok hsuper]
  dsimp only
  rw [bind_of_ok hreceiver]
  dsimp only
  cases hfn : parent.findMethod method.lexeme with
  | some fn =>
    obtain ⟨K, hK, hmethod⟩ := hfits.findMethod hfn
    obtain ⟨C, hC, hchain⟩ := hA.chain
    exact ends_boundMethod h.heap hmethod hC (Class.superclass_chain_subset hchain hparent hK)
  | none => exact .fault h.heap trivial

theorem ends_property {value : Value} {name : Token} (h : HeapFits W.programs Λ m.store)
    (hname : name.is .identifier = true) :
    Ends W Λ m (property value name m) (ValueFits W.programs) := by
  cases value with
  | object i =>
    unfold property instanceProperty
    dsimp only
    cases hfield : m.store.field? i name.lexeme with
    | some v => exact ⟨Λ, .refl h, h.fields i _ v hfield⟩
    | none =>
      dsimp only
      cases hmethod : (m.store.class? i).bind (Class.findMethod name.lexeme) with
      | none => exact .fault h trivial
      | some fn =>
        obtain ⟨c, hc, hfn⟩ := Option.bind_eq_some_iff.mp hmethod
        obtain ⟨K, hK, hfits⟩ := (h.classes i c hc).findMethod hfn
        exact ends_boundMethod h hfits hc hK
  | library l =>
    refine .ofOption h (fun a ha => ?_) fun _ => trivial
    obtain ⟨f, -, rfl⟩ := Option.map_eq_some_iff.mp ha
    trivial
  | _ => exact .fault h hname

theorem ends_callNative {f : Native} {args : List Value} {site : Token}
    (h : HeapFits W.programs Λ m.store) :
    Ends W Λ m (callNative f args site m) (ValueFits W.programs) := by
  have written (line : String) : Ends W Λ m (writeLine line site m) (fun _ _ _ => True) := by
    unfold writeLine
    split
    · split_ifs
      · exact .fault h trivial
      · exact ⟨Λ, ⟨h, List.prefix_refl Λ, .refl _, rfl, by simp, rfl⟩, trivial⟩
    · exact ⟨Λ, ⟨h, List.prefix_refl Λ, .refl _, rfl, by simp, rfl⟩, trivial⟩
  cases f with
  | log => exact (written _).map fun _ _ _ _ => trivial
  | now => exact ⟨Λ, .refl h, trivial⟩

/-! ## Classes -/

/-- The visits of the methods of a class, each in the scopes of the class. -/
theorem visits_method {ms : List FunctionDecl} {s : State} {ns : List (List String)}
    {d : FunctionDecl} (hd : d ∈ ms) :
    ∃ s', s'.scopes = s.scopes ∧ s'.classes = s.classes ∧
      Relation.ReflTransGen Step ⟨.methods ms, s, ns⟩
        ⟨.function (methodContext d.name) d, s', ns⟩ := by
  induction ms generalizing s with
  | nil => cases hd
  | cons first ms ih =>
    rcases List.mem_cons.mp hd with rfl | hd
    · exact ⟨s, rfl, rfl, .single .firstMethod⟩
    · have hwalk := advance_walkFunction (methodContext first.name) first s
      obtain ⟨s', hscopes, hclasses, hpart⟩ := ih (s := walkFunction _ first s) hd
      exact ⟨s', hscopes.trans hwalk.2, hclasses.trans hwalk.1.classes, hpart.head .otherMethods⟩

theorem At.ends_readParent {v : Visit} {decl : ClassDecl} (h : At W Λ m v)
    (hcode : v.code = .stmt (.classDecl decl)) :
    Ends W Λ m (readParent (.byDistance W.distances) decl.superclass m)
      (fun Λ' st parent => parent.isSome = decl.superclass.isSome ∧
        ∀ c ∈ parent, ClassFits W.programs Λ' st c) := by
  obtain ⟨name, superclass, interface, methods⟩ := decl
  cases superclass with
  | none => exact .pure h.heap ⟨rfl, nofun⟩
  | some parent =>
    have href : Refers v.code parent.ref parent.name := by
      rw [hcode]
      exact .superclass
    have hname : parent.name.IsName := by
      have := h.sound.proper
      rw [hcode] at this
      exact this.2.1 parent rfl
    have hread : v.state.isUnreadable parent.name.lexeme = false := by
      rcases href.readable h.sound with hread | ⟨e, he⟩
      · exact hread
      · rw [hcode] at he
        cases he
    refine (h.ends_readRef href hread).bind fun value Λ' m' _ hfollows hvalue => ?_
    cases value with
    | cls c =>
      refine .pure hfollows.heap ⟨rfl, ?_⟩
      rintro _ ⟨⟩
      exact hvalue.fits
    | _ => exact .fault hfollows.heap hname.identifier

/-- The frame of the methods matches the scopes around that of `this`. -/
theorem ends_methodFrame {parent : Option Class} {superclass : Option Superclass} {frame : FrameId}
    {scopes : List Names} {declared : List (List String)} (h : HeapFits W.programs Λ m.store)
    (hframe : Matches Λ m.store frame scopes declared)
    (hparent : ∀ c ∈ parent, ClassFits W.programs Λ m.store c)
    (hsome : parent.isSome = superclass.isSome) :
    Ends W Λ m (methodFrame parent frame m) (fun Λ' st inner =>
      Matches Λ' st inner ((classScopes superclass).tail ++ scopes)
        ((classNames superclass).tail ++ declared)) := by
  cases parent with
  | none =>
    cases superclass with
    | some _ => cases hsome
    | none => exact .pure h hframe
  | some c =>
    cases superclass with
    | none => cases hsome
    | some p =>
      have hbs : ∀ x v, Bindings.get? [("super", .cls c)] x = some v →
          x ∈ ["super"] ∧ Bindable W.programs Λ m.store x v := by
        intro x v hv
        rw [Bindings.get?_cons] at hv
        split_ifs at hv with hx
        · cases hv
          exact ⟨List.mem_singleton.mpr hx, hparent c rfl, fun h' => by simp_all, fun _ => ⟨c, rfl⟩⟩
        · cases hv
      refine ⟨_, .newFrame h (hframe.lt h.root) hbs, matches_newFrame h hframe fun x hx => ?_⟩
      rw [lookup_cons] at hx
      rw [Bindings.get?_cons]
      split_ifs at hx ⊢
      · rfl
      · cases hx

/-- The frames of a class that is made: its name is bound in the current one, and its methods are in one
that matches the scopes around that of `this`. -/
theorem At.ends_classFrames {v : Visit} {decl : ClassDecl} (h : At W Λ m v)
    (hcode : v.code = .stmt (.classDecl decl)) :
    Ends W Λ m (makeClass (.byDistance W.distances) decl m) (fun Λ' st made =>
      made.1 = m.current ∧ (st.get? m.current decl.name.lexeme).isSome = true ∧
        (∀ parent, made.2.superclass = some parent → ClassFits W.programs Λ' st parent) ∧
        ∀ fn ∈ made.2.methods, fn.decl ∈ decl.methods ∧ Matches Λ' st fn.frame
          ((classScopes decl.superclass).tail ++ (v.state.introduce decl.name).scopes)
          ((classNames decl.superclass).tail ++ v.declared)) := by
  obtain ⟨name, superclass, interface, methods⟩ := decl
  unfold makeClass
  have hname : name.IsName := by
    have := h.sound.proper
    rw [hcode] at this
    exact this.1
  refine (h.ends_readParent hcode).bind fun parent Λ₁ m₁ _ h₁ hparent => ?_
  obtain ⟨hsome, hparent⟩ := hparent
  have hat₁ := h.after h₁
  have hpending : name.lexeme ∈ v.code.pending := by
    rw [hcode]
    exact List.mem_singleton_self _
  refine (ends_define (v := .null) h₁.heap hname (hat₁.may_bind hpending) trivial
    (hat₁.frames.lt h₁.heap.root)).bind fun _ Λ₂ m₂ _ h₂ hbound => ?_
  obtain ⟨rfl, hbound⟩ := hbound
  rw [← h₂.current] at hbound
  have hat₂ := hat₁.after h₂
  rw [bind_of_ok (show currentFrame m₂ = .ok m₂.current m₂ from rfl)]
  refine (ends_methodFrame h₂.heap (hat₂.frames.introduce hbound)
    (fun c hc => (h₂.fits (v := .cls c) (hparent c hc))) hsome).bind
    fun inner Λ₃ m₃ _ h₃ hinner => ?_
  obtain ⟨fns, k, heq, hfns⟩ := newMethods_eq inner methods [] m₃
  rw [bind_of_ok heq]
  refine ⟨Λ₃, ⟨h₃.heap, List.prefix_refl Λ₃, .refl _, rfl, List.prefix_refl _, rfl⟩, ?_, ?_,
    fun c hc => ?_, fun fn hfn => ?_⟩
  · rw [h₂.current, h₁.current]
  · rw [← h₁.current, ← h₂.current]
    exact h₃.later.bound _ _ hbound
  · exact h₃.fits (v := .cls c) (h₂.fits (v := .cls c) (hparent c hc))
  · obtain hnone | ⟨id, d, hd, rfl⟩ := hfns fn hfn
    · cases hnone
    · exact ⟨hd, hinner⟩

/-- **The class that is made fits, and its name is bound in the current frame.** -/
theorem At.ends_makeClass {v : Visit} {decl : ClassDecl} (h : At W Λ m v)
    (hcode : v.code = .stmt (.classDecl decl)) :
    Ends W Λ m (makeClass (.byDistance W.distances) decl m) (fun Λ' st made =>
      made.1 = m.current ∧ (st.get? m.current decl.name.lexeme).isSome = true ∧
        ClassFits W.programs Λ' st made.2) := by
  have hends := h.ends_classFrames hcode
  cases hmade : makeClass (.byDistance W.distances) decl m with
  | ok made m' =>
    obtain ⟨Λ', hfollows, hframe, hbound, hparent, hmethods⟩ := hends.ok hmade
    refine ⟨Λ', hfollows, hframe, hbound, fun K hK fn hfn => ?_⟩
    rcases Class.mem_chain hK with rfl | ⟨parent, hsuperclass, hK⟩
    · obtain ⟨hd, hmatches⟩ := hmethods fn hfn
      obtain ⟨code, s, ns⟩ := v
      subst hcode
      obtain ⟨name, superclass, interface, methods⟩ := decl
      obtain ⟨s', hscopes, hclasses, hpart⟩ := @visits_method
        _ (enterClass name superclass s) (classNames superclass ++ ns) _ hd
      rw [scopes_enterClass] at hscopes
      rw [(enterClass_context name superclass s).1] at hclasses
      refine ⟨_, _, ⟨⟨W.distances, made.1, m, m', hmade, .refl _⟩, hfn,
        ⟨_, h.known, rfl, hpart.head .classMethods⟩, ⟨_, rfl⟩, ?_, ?_, hclasses⟩, ?_⟩
      · rw [hscopes]
        cases superclass <;> rfl
      · cases superclass <;> rfl
      · dsimp only
        rw [hscopes]
        cases superclass <;> exact hmatches
    · exact hparent parent hsuperclass K hK fn hfn
  | fault f m' =>
    rw [hmade] at hends
    exact hends
  | exhausted => trivial

/-- **The name of a class can be assigned to when the class is made.** -/
theorem At.closing {v : Visit} {decl : ClassDecl} {made : FrameId × Class} (h : At W Λ m v)
    (hcode : v.code = .stmt (.classDecl decl))
    (hmade : makeClass (.byDistance W.distances) decl m = .ok made m') :
    ∃ m'', assignFrom made.1 decl.name (.cls made.2) m' = .ok () m'' := by
  have hends := h.ends_makeClass hcode
  rw [hmade] at hends
  obtain ⟨Λ', -, hframe, hbound, -⟩ := hends
  unfold assignFrom assignIn
  rw [hframe, Store.owner?_self hbound]
  exact ⟨_, rfl⟩

/-- **A class declaration.** -/
theorem At.ends_declareClass {v : Visit} {decl : ClassDecl} (h : At W Λ m v)
    (hcode : v.code = .stmt (.classDecl decl)) :
    Ends W Λ m (declareClass (.byDistance W.distances) decl m)
      (fun _ st _ => (st.get? m.current decl.name.lexeme).isSome = true) := by
  rw [declareClass_eq]
  refine (h.ends_makeClass hcode).bind fun made Λ' m' _ hfollows hmade => ?_
  obtain ⟨hframe, hbound, hfits⟩ := hmade
  have hname : decl.name.IsName := by
    have := h.sound.proper
    rw [hcode] at this
    obtain ⟨name, superclass, interface, methods⟩ := decl
    exact this.1
  unfold assignFrom assignIn
  rw [hframe, Store.owner?_self hbound]
  have hlater := later_define hname m.current (.cls made.2) m'.store
  exact ⟨Λ', .store (hfollows.heap.overwrite (v := .cls made.2) hname hbound hfits)
    (List.prefix_refl Λ') hlater, hlater.bound _ _ hbound⟩

end Scriptlet.Run
