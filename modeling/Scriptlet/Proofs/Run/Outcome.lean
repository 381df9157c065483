import Scriptlet.Proofs.Run.Heap

/-!
# How computations end

A computation that starts where the invariant of the store holds (`HeapFits`) ends where it holds,
with the same current frame, also when it faults. `Ends` says so of a result, together with what is
known of the value; `Ends.bind` puts computations together, so that what one of them does is proved
once.

A fault must be one that programs can be blamed for (`Benign`): an undefined variable is one no
distance is known for, and the faults that only a badly resolved or badly parsed program could cause
do not happen.

Results:
* `At.bound`: the frame at the distance of a reference binds its name.
* `Ends.bind`, `Ends.inFrame`: composition.
* `ends_unary`, `ends_binary`: operators that can be parsed.
-/

namespace Scriptlet.Run

open Scope Exec

/-- Programs without errors, and the distances of all their references. -/
structure World where
  programs : List Stmt → Prop
  distances : Distances
  resolved : ∀ program, programs program → Resolved distances program

variable {W : World} {Λ Λ' Λ'' : Layout} {m m' m'' : Machine}

theorem Known.sound {v : Visit} (h : Known W.programs v) : Sound W.distances v := by
  obtain ⟨program, hprogram, hv⟩ := h
  exact hv.sound (W.resolved program hprogram)

/-- A part refers to a name, by itself and not in a part of its own. -/
inductive Refers : Code → RefId → Token → Prop
  | var {ref name} : Refers (.expr (.var ref name)) ref name
  | assign {ref name e} : Refers (.expr (.assign ref name e)) ref name
  | this {ref keyword} : Refers (.expr (.this ref keyword)) ref keyword
  | super {ref keyword method} : Refers (.expr (.super ref keyword method)) ref keyword
  | superclass {ref parent name interface ms} :
    Refers (.stmt (.classDecl ⟨name, some ⟨ref, parent⟩, interface, ms⟩)) ref parent

/-- The distance of a reference is that to the nearest scope that declares its name. -/
theorem Refers.distance {D : Distances} {v : Visit} {ref : RefId} {name : Token}
    (h : Refers v.code ref name) (hv : Sound D v) :
    D[ref]? = distanceIn v.state.scopes name.lexeme := by
  obtain ⟨code, s, ns⟩ := v
  cases h with
  | var => exact hv.var.1
  | assign => exact hv.assign
  | this =>
    obtain ⟨k, hk, hk'⟩ := hv.this
    rw [hk, hk']
  | super =>
    obtain ⟨k, hk, hk', -⟩ := hv.super
    rw [hk, hk']
  | superclass => exact hv.superclass.1

/-- Only an assignment may refer to a name that cannot be read yet. -/
theorem Refers.readable {D : Distances} {v : Visit} {ref : RefId} {name : Token}
    (h : Refers v.code ref name) (hv : Sound D v) :
    v.state.isUnreadable name.lexeme = false ∨ ∃ e, v.code = .expr (.assign ref name e) := by
  obtain ⟨code, s, ns⟩ := v
  cases h with
  | var => exact .inl hv.var.2
  | assign => exact .inr ⟨_, rfl⟩
  | this => exact .inl (hv.keyword_readable (.inl hv.proper))
  | super => exact .inl (hv.keyword_readable (.inr hv.proper.1))
  | superclass =>
    refine .inl (Bool.eq_false_iff.mpr fun hun => ?_)
    obtain ⟨scope, hscope, hl⟩ := isUnreadable_iff.mp hun
    cases (hv.inner scope hscope _ hl).1

/-- The fault is one that a program can be blamed for. -/
def Benign (W : World) (f : Fault) : Prop :=
  match f.cause with
  | .undefinedVariable x => x = f.site.lexeme ∧ x ≠ "this" ∧
    ∃ v ref, Known W.programs v ∧ Refers v.code ref f.site ∧ W.distances[ref]? = none
  | .superOutsideClass | .invalidUnaryOperator | .invalidBinaryOperator => False
  | .superclassNotClass | .noProperties => f.site.is .identifier = true
  | _ => True

/-! ## Machines -/

/-- **A machine is at a visit**: the frames from the current one outwards stand for its scopes, and a
part of a method runs in the body of that method. -/
structure At (W : World) (Λ : Layout) (m : Machine) (v : Visit) : Prop where
  known : Known W.programs v
  heap : HeapFits W.programs Λ m.store
  frames : Matches Λ m.store m.current v.state.scopes v.declared
  home : Home W.programs m.store m.current v

/-- A run has come from one machine to another, and is back in the frame it started in. What was
written is not taken back, and the clock stands still. -/
structure Follows (W : World) (Λ : Layout) (m : Machine) (Λ' : Layout) (m' : Machine) : Prop where
  heap : HeapFits W.programs Λ' m'.store
  layout : Λ <+: Λ'
  later : m.store.Later m'.store
  current : m'.current = m.current
  output : m.output.toList <+: m'.output.toList
  clock : m'.clock = m.clock

theorem Follows.refl (h : HeapFits W.programs Λ m.store) : Follows W Λ m Λ m :=
  ⟨h, List.prefix_refl Λ, .refl _, rfl, List.prefix_refl _, rfl⟩

theorem Follows.trans (h : Follows W Λ m Λ' m') (h' : Follows W Λ' m' Λ'' m'') :
    Follows W Λ m Λ'' m'' :=
  ⟨h'.heap, h.layout.trans h'.layout, h.later.trans h'.later, h'.current.trans h.current,
    h.output.trans h'.output, h'.clock.trans h.clock⟩

/-- A change of the store that leaves its frames in place. -/
theorem Follows.store {st : Store} (h : HeapFits W.programs Λ' st) (hΛ : Λ <+: Λ')
    (hst : m.store.Later st) : Follows W Λ m Λ' { m with store := st } :=
  ⟨h, hΛ, hst, rfl, List.prefix_refl _, rfl⟩

/-- What fits before fits after. -/
theorem Follows.fits (h : Follows W Λ m Λ' m') {v : Value}
    (hv : ValueFits W.programs Λ m.store v) : ValueFits W.programs Λ' m'.store v :=
  hv.later (fun _ hp => hp) h.later h.layout

namespace At

variable {v w : Visit}

theorem sound (h : At W Λ m v) : Sound W.distances v := h.known.sound

/-- A run that is back in its frame is at the same visit. -/
theorem after (h : At W Λ m v) (hf : Follows W Λ m Λ' m') : At W Λ' m' v := by
  refine ⟨h.known, hf.heap, ?_, ?_⟩
  · rw [hf.current]
    exact h.frames.later hf.later hf.layout
  · rw [hf.current]
    exact h.home.later (fun _ hp => hp) hf.later

/-- A part in the same scopes is visited in the same frames. -/
theorem within (h : At W Λ m v) (hstep : Step v w)
    (hscopes : w.state.scopes = v.state.scopes) (hdeclared : w.declared = v.declared) :
    At W Λ m w := by
  refine ⟨h.known.step hstep, h.heap, ?_, h.home.stay hstep h.sound.proper hdeclared⟩
  rw [hscopes, hdeclared]
  exact h.frames

/-- **The frame at the distance of a reference is there and binds its name**, unless the name is
assigned to in its own initializer. -/
theorem bound (h : At W Λ m v) {ref : RefId} {name : Token} {d : Nat}
    (href : Refers v.code ref name) (hd : W.distances[ref]? = some d) :
    ∃ g, m.store.ancestor m.current d = some g ∧
      ((m.store.get? g name.lexeme).isSome = true ∨
        v.state.isUnreadable name.lexeme = true ∧ ∃ e, v.code = .expr (.assign ref name e)) := by
  have hdist := href.distance h.sound
  rw [hd] at hdist
  cases hun : v.state.isUnreadable name.lexeme with
  | false =>
    obtain ⟨scope, hscope, hl⟩ := h.sound.lookup_eq_true hdist.symm hun
    obtain ⟨g, -, hg, -, -, hbound⟩ := h.frames.at_distance hscope
    exact ⟨g, hg, .inl (hbound _ hl)⟩
  | true =>
    obtain ⟨scope, hscope, -⟩ := distanceIn_eq_some hdist.symm
    obtain ⟨g, -, hg, -⟩ := h.frames.at_distance hscope
    rcases href.readable h.sound with hread | hassign
    · rw [hun] at hread
      cases hread
    · exact ⟨g, hg, .inr ⟨rfl, hassign⟩⟩

/-- A name that is declared and readable is bound at its distance, to a value of the right kind. -/
theorem reads (h : At W Λ m v) {x : String} {d : Nat}
    (hd : distanceIn v.state.scopes x = some d) (hx : v.state.isUnreadable x = false) :
    ∃ a, m.store.getAt m.current d x = some a ∧ Bindable W.programs Λ m.store x a := by
  obtain ⟨scope, hscope, hl⟩ := h.sound.lookup_eq_true hd hx
  obtain ⟨g, -, hg, -, -, hbound⟩ := h.frames.at_distance hscope
  obtain ⟨a, ha⟩ := Option.isSome_iff_exists.mp (hbound x hl)
  refine ⟨a, ?_, h.heap.bindings g x a ha⟩
  rw [Store.getAt, hg]
  exact ha

/-- A reference that no distance is known for may be undefined. -/
theorem benign_undefined (h : At W Λ m v) {ref : RefId} {name : Token}
    (href : Refers v.code ref name) (hd : W.distances[ref]? = none) :
    Benign W (.undefinedVariable name) := by
  refine ⟨rfl, ?_, v, ref, h.known, href, hd⟩
  have hv := h.sound
  obtain ⟨code, s, ns⟩ := v
  cases href with
  | var => exact hv.proper.ne_this
  | assign => exact hv.proper.1.ne_this
  | this =>
    obtain ⟨k, hk, -⟩ := hv.this
    rw [hd] at hk
    cases hk
  | super =>
    obtain ⟨k, hk, -⟩ := hv.super
    rw [hd] at hk
    cases hk
  | superclass => exact (hv.proper.2.1 _ rfl).ne_this

end At

/-! ## Results -/

/-- **The invariant holds at the end**, and `Q` of the value, the layout and the store. -/
def Ends {α : Type} (W : World) (Λ : Layout) (m : Machine) (r : Result α)
    (Q : Layout → Store → α → Prop) : Prop :=
  match r with
  | .ok a m' => ∃ Λ', Follows W Λ m Λ' m' ∧ Q Λ' m'.store a
  | .fault f m' => (∃ Λ', Follows W Λ m Λ' m') ∧ Benign W f
  | .exhausted => True

namespace Ends

variable {α β : Type} {Q R : Layout → Store → α → Prop} {S : Layout → Store → β → Prop}
  {r : Result α}

theorem pure {a : α} (h : HeapFits W.programs Λ m.store) (hq : Q Λ m.store a) :
    Ends W Λ m ((Pure.pure a : Exec α) m) Q := ⟨Λ, .refl h, hq⟩

/-- A fault that leaves the machine as it is. -/
theorem fault {f : Fault} (h : HeapFits W.programs Λ m.store) (hf : Benign W f) :
    Ends W Λ m (.fault f m) Q := ⟨⟨Λ, .refl h⟩, hf⟩

theorem mono (h : Ends W Λ m r Q) (hq : ∀ Λ' st a, Q Λ' st a → R Λ' st a) : Ends W Λ m r R := by
  cases r with
  | ok a m' =>
    obtain ⟨Λ', hfollows, ha⟩ := h
    exact ⟨Λ', hfollows, hq _ _ _ ha⟩
  | fault f m' => exact h
  | exhausted => trivial

theorem ok {a : α} (h : Ends W Λ m r Q) (hr : r = .ok a m') :
    ∃ Λ', Follows W Λ m Λ' m' ∧ Q Λ' m'.store a := by
  rw [hr] at h
  exact h

/-- Something has happened before. -/
theorem after (hf : Follows W Λ m Λ' m') (h : Ends W Λ' m' r Q) : Ends W Λ m r Q := by
  cases r with
  | ok a m'' =>
    obtain ⟨Λ'', hfollows, hq⟩ := h
    exact ⟨Λ'', hf.trans hfollows, hq⟩
  | fault f m'' =>
    obtain ⟨⟨Λ'', hfollows⟩, hbenign⟩ := h
    exact ⟨⟨Λ'', hf.trans hfollows⟩, hbenign⟩
  | exhausted => trivial

/-- **One computation after the other.** -/
theorem bind {x : Exec α} {f : α → Exec β} (hx : Ends W Λ m (x m) Q)
    (hf : ∀ a Λ' m', x m = .ok a m' → Follows W Λ m Λ' m' → Q Λ' m'.store a →
      Ends W Λ' m' (f a m') S) : Ends W Λ m ((x >>= f) m) S := by
  show Ends W Λ m (Exec.bind x f m) S
  unfold Exec.bind
  cases hr : x m with
  | ok a m' =>
    rw [hr] at hx
    obtain ⟨Λ', hfollows, hq⟩ := hx
    exact (hf a Λ' m' hr hfollows hq).after hfollows
  | fault f m' =>
    rw [hr] at hx
    exact hx
  | exhausted => trivial

/-- The value is only wrapped up. -/
theorem map {x : Exec α} {f : α → β} (hx : Ends W Λ m (x m) Q)
    (hf : ∀ a Λ' st, Q Λ' st a → S Λ' st (f a)) :
    Ends W Λ m ((do return f (← x)) m) S :=
  hx.bind fun a Λ' _ _ hfollows hq => .pure hfollows.heap (hf a Λ' _ hq)

/-- **A computation in another frame.** -/
theorem inFrame {x : Exec α} {f : FrameId}
    (h : Ends W Λ { m with current := f } (x { m with current := f }) Q) :
    Ends W Λ m (Exec.inFrame f x m) Q := by
  unfold Exec.inFrame
  cases hr : x { m with current := f } with
  | ok a m' =>
    rw [hr] at h
    obtain ⟨Λ', hfollows, hq⟩ := h
    exact ⟨Λ', ⟨hfollows.heap, hfollows.layout, hfollows.later, rfl, hfollows.output,
      hfollows.clock⟩, hq⟩
  | fault f m' =>
    rw [hr] at h
    obtain ⟨⟨Λ', hfollows⟩, hbenign⟩ := h
    exact ⟨⟨Λ', hfollows.heap, hfollows.layout, hfollows.later, rfl, hfollows.output,
      hfollows.clock⟩, hbenign⟩
  | exhausted => trivial

/-- A value if there is one. -/
theorem ofOption {o : Option α} {f : Fault} (h : HeapFits W.programs Λ m.store)
    (hsome : ∀ a, o = some a → Q Λ m.store a) (hnone : o = none → Benign W f) :
    Ends W Λ m (Exec.ofOption o f m) Q := by
  cases o with
  | some a => exact ⟨Λ, .refl h, hsome a rfl⟩
  | none => exact .fault h (hnone rfl)

end Ends

/-! ## Operators -/

theorem ends_unary {op : Token} {operand : Value} (h : HeapFits W.programs Λ m.store)
    (hop : (op.is .bang || op.is .minus) = true) :
    Ends W Λ m (ofOperator (operand.unary op) m) (ValueFits W.programs) := by
  have hkind : op.kind = .symbol .bang ∨ op.kind = .symbol .minus := by
    simpa [Token.is] using hop
  unfold Value.unary
  rcases hkind with hk | hk
  · rw [hk]
    exact ⟨Λ, .refl h, trivial⟩
  · rw [hk]
    cases operand with
    | number x => exact ⟨Λ, .refl h, trivial⟩
    | _ => exact .fault h trivial

theorem ends_arithmetic {op : Token} {x y : Value} {f : Number → Number → Value}
    (h : HeapFits W.programs Λ m.store)
    (hf : ∀ a b, ValueFits W.programs Λ m.store (f a b)) :
    Ends W Λ m (ofOperator (Value.arithmetic op x y f) m) (ValueFits W.programs) := by
  unfold Value.arithmetic
  split
  · exact ⟨Λ, .refl h, hf _ _⟩
  · exact .fault h trivial

theorem ends_plus {op : Token} {x y : Value} (h : HeapFits W.programs Λ m.store) :
    Ends W Λ m (ofOperator (Value.plus op x y) m) (ValueFits W.programs) := by
  unfold Value.plus
  split
  all_goals first
    | exact ⟨Λ, .refl h, trivial⟩
    | exact .fault h trivial

theorem ends_binary {op : Token} {x y : Value} (h : HeapFits W.programs Λ m.store)
    (hop : binaryOperators.any op.is = true) :
    Ends W Λ m (ofOperator (Value.binary op x y) m) (ValueFits W.programs) := by
  obtain ⟨symbol, hmem, his⟩ := List.any_eq_true.mp hop
  have hkind : op.kind = .symbol symbol := by simpa [Token.is] using his
  unfold Value.binary
  rw [hkind]
  simp only [binaryOperators, List.mem_cons, List.not_mem_nil, or_false] at hmem
  rcases hmem with rfl | rfl | rfl | rfl | rfl | rfl | rfl | rfl | rfl | rfl
  · exact ⟨Λ, .refl h, trivial⟩
  · exact ⟨Λ, .refl h, trivial⟩
  · exact ends_arithmetic h fun _ _ => trivial
  · exact ⟨Λ, .refl h, trivial⟩
  · exact ⟨Λ, .refl h, trivial⟩
  · exact ⟨Λ, .refl h, trivial⟩
  · exact ends_arithmetic h fun _ _ => trivial
  · exact ends_plus h
  · exact ends_arithmetic h fun _ _ => trivial
  · exact ends_arithmetic h fun _ _ => trivial

end Scriptlet.Run
