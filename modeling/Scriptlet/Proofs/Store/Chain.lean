import Mathlib.Order.Bounds.Basic
import Scriptlet.Machine
import Scriptlet.Proofs.Store

/-!
# By name and by distance

A variable is reached from a frame in two ways: by its name alone, along the links outwards
(`Exec.readFrom`, `Exec.assignFrom`), or in the frame that is a given number of links away
(`Exec.readAt`, `Exec.writeAt`). References go the one way or the other (`Exec.readRef_eq`,
`Exec.writeRef_eq`). To the store an assignment does what `Store.assign?` and `Store.assignAt?` say
(`Exec.assignFrom_eq`, `Exec.writeAt_eq`).

Both are told by the chain of the frame, the frames from there outwards (`Store.Chain`). Chains share
their outer frames, so what is written from one frame is seen from others.

Results:
* `Store.owner?_eq_ancestor`: **by name, the frame is found that binds the name at the least distance.**
* `FrameOp.perform_cases`: an operation that fails changes nothing.
* `name_or_distance`: where both ways lead, and that they agree, for all frames that operations build.
-/

namespace Scriptlet

/-! ## The frames around a frame -/

namespace Store

/-- **The chain of a frame**: the frame and those around it, up to one that no frame encloses. -/
inductive Chain (s : Store) : FrameId → List FrameId → Prop
  | outermost {f} (h : s.enclosing? f = none) : Chain s f [f]
  | inside {f g fs} (h : s.enclosing? f = some g) (rest : Chain s g fs) : Chain s f (f :: fs)

variable {s : Store} {f : FrameId} {fs : List FrameId}

theorem Chain.unique (h : s.Chain f fs) : ∀ {gs}, s.Chain f gs → gs = fs := by
  induction h with
  | outermost hnone =>
    intro gs hgs
    cases hgs with
    | outermost => rfl
    | inside hsome => rw [hnone] at hsome; cases hsome
  | inside hsome _ ih =>
    intro gs hgs
    cases hgs with
    | outermost hnone => rw [hsome] at hnone; cases hnone
    | inside h rest =>
      obtain rfl := Option.some.inj (hsome.symm.trans h)
      rw [ih rest]

/-- **A number of links outwards is a place in the chain.** -/
theorem Chain.ancestor (h : s.Chain f fs) (d : Nat) : s.ancestor f d = fs[d]? := by
  induction h generalizing d with
  | outermost hnone => cases d <;> simp [Store.ancestor, hnone]
  | inside hsome _ ih =>
    cases d with
    | zero => rfl
    | succ d => rw [ancestor_succ hsome, ih, List.getElem?_cons_succ]

theorem Chain.length_pos (h : s.Chain f fs) : 0 < fs.length := by cases h <;> simp

theorem Chain.ancestor_eq_none (h : s.Chain f fs) (d : Nat) :
    s.ancestor f d = none ↔ fs.length ≤ d := by
  rw [h.ancestor, List.getElem?_eq_none_iff]

theorem isSome_owner? (s : Store) (f : FrameId) (x : String) :
    (s.owner? f x).isSome = (s.lookup f x).isSome := by
  unfold lookup
  cases ho : s.owner? f x with
  | none => rfl
  | some g =>
    rw [Option.bind_some, owner?_bound ho]
    rfl

/-- What is bound to a value can be bound to another one. -/
theorem isSome_assign? (s : Store) (f : FrameId) (x : String) (v : Value) :
    (s.assign? f x v).isSome = (s.lookup f x).isSome := by
  rw [assign?, Option.isSome_map, isSome_owner?]

theorem isSome_assignAt? (s : Store) (f : FrameId) (d : Nat) (x : String) (v : Value) :
    (s.assignAt? f d x v).isSome = (s.ancestor f d).isSome := Option.isSome_map

section
variable (hlinks : ∀ f g, s.enclosing? f = some g → g < f)
include hlinks

theorem exists_chain (f : FrameId) : ∃ fs, s.Chain f fs := by
  induction f using Nat.strong_induction_on with
  | _ f ih =>
    cases hg : s.enclosing? f with
    | none => exact ⟨[f], .outermost hg⟩
    | some g =>
      obtain ⟨fs, hfs⟩ := ih g (hlinks f g hg)
      exact ⟨f :: fs, .inside hg hfs⟩

/-- **By name, the first frame of the chain that binds it is found.** -/
theorem Chain.owner? (h : s.Chain f fs) (x : String) :
    s.owner? f x = fs.find? fun g => (s.get? g x).isSome := by
  induction h with
  | outermost hnone =>
    rw [owner?_eq hlinks, hnone, List.find?_cons, List.find?_nil]
    split <;> simp_all
  | inside hsome _ ih =>
    rw [owner?_eq hlinks, hsome, List.find?_cons, Option.bind_some, ih]
    split <;> simp_all

theorem Chain.lookup (h : s.Chain f fs) (x : String) :
    s.lookup f x = fs.findSome? (s.get? · x) := by
  unfold Store.lookup
  rw [h.owner? hlinks]
  clear h
  induction fs with
  | nil => rfl
  | cons g gs ih =>
    rw [List.find?_cons, List.findSome?_cons]
    cases hg : s.get? g x with
    | some v => simp [hg]
    | none => simpa [hg] using ih

/-- **By name, the frame is found that binds the name at the least distance.** -/
theorem owner?_eq_ancestor {x : String} {d : Nat}
    (h : IsLeast {d | (s.getAt f d x).isSome = true} d) : s.owner? f x = s.ancestor f d := by
  obtain ⟨fs, hfs⟩ := exists_chain hlinks f
  obtain ⟨hd, hleast⟩ := h
  have hbinds (i : Nat) (hi : i < fs.length) :
      (s.getAt f i x).isSome = true ↔ (s.get? fs[i] x).isSome = true := by
    unfold getAt
    rw [hfs.ancestor, List.getElem?_eq_getElem hi, Option.bind_some]
  have hlt : d < fs.length := by
    by_contra hge
    have hnone := (hfs.ancestor_eq_none d).mpr (Nat.le_of_not_lt hge)
    simp [getAt, hnone] at hd
  rw [hfs.owner? hlinks, hfs.ancestor, List.getElem?_eq_getElem hlt,
    List.find?_eq_some_iff_getElem]
  refine ⟨(hbinds d hlt).mp hd, d, hlt, rfl, fun i hi => ?_⟩
  have hnot : ¬ (s.getAt f i x).isSome = true := fun hi' => Nat.not_le_of_lt hi (hleast hi')
  rw [hbinds i (Nat.lt_trans hi hlt)] at hnot
  simpa using hnot

theorem lookup_eq_getAt {x : String} {d : Nat}
    (h : IsLeast {d | (s.getAt f d x).isSome = true} d) : s.lookup f x = s.getAt f d x := by
  unfold lookup getAt
  rw [owner?_eq_ancestor hlinks h]

theorem assign?_eq_assignAt? {x : String} {d : Nat}
    (h : IsLeast {d | (s.getAt f d x).isSome = true} d) (v : Value) :
    s.assign? f x v = s.assignAt? f d x v := by
  unfold assign? assignAt?
  rw [owner?_eq_ancestor hlinks h]

end

/-! ## A binding is changed -/

theorem ancestor_define (g : FrameId) (x : String) (v : Value) (s : Store) (f : FrameId) (d : Nat) :
    (s.define g x v).ancestor f d = s.ancestor f d := by
  induction d generalizing f with
  | zero => rfl
  | succ d ih =>
    rw [ancestor, ancestor, enclosing?_define]
    cases s.enclosing? f with
    | none => rfl
    | some outer => exact ih outer

theorem ownerWithin_define {g : FrameId} {x : String} (hg : (s.get? g x).isSome = true)
    (v : Value) (y : String) (n : Nat) (f : FrameId) :
    (s.define g x v).ownerWithin y n f = s.ownerWithin y n f := by
  have hbinds (f : FrameId) : ((s.define g x v).get? f y).isSome = (s.get? f y).isSome := by
    rw [get?_define]
    split_ifs with h
    · obtain ⟨rfl, rfl, -⟩ := h
      exact hg.symm
    · rfl
  induction n generalizing f with
  | zero => rw [ownerWithin, ownerWithin, hbinds]
  | succ n ih =>
    rw [ownerWithin, ownerWithin, hbinds, enclosing?_define]
    cases s.enclosing? f with
    | none => rfl
    | some outer => simp only [ih]

/-- **What a change is seen through**: the frames from which the name leads to the frame it is made in,
and no others. -/
theorem lookup_define {g : FrameId} {x : String} (hg : (s.get? g x).isSome = true) (v : Value)
    (f : FrameId) (y : String) :
    (s.define g x v).lookup f y =
      if y = x ∧ s.owner? f x = some g then some v else s.lookup f y := by
  unfold lookup owner?
  rw [ownerWithin_define hg]
  by_cases hy : y = x
  · subst hy
    cases ho : s.ownerWithin y f f with
    | none => simp
    | some o =>
      by_cases hog : o = g
      · subst hog
        simp [get?_define, get?_lt hg]
      · simp [get?_define, hog]
  · have hne : ¬ (y = x ∧ s.ownerWithin x f f = some g) := fun h => hy h.1
    rw [if_neg hne]
    cases s.ownerWithin y f f with
    | none => rfl
    | some o => simp [get?_define, hy]

end Store

/-! ## Reading and writing -/

namespace Exec

/-- Reads a name, from the frame `f` outwards. -/
def readFrom (f : FrameId) (name : Token) : Exec Value := fun m =>
  ofOption (m.store.lookup f name.lexeme) (.undefinedVariable name) m

/-- Reads a name in the frame `d` links outwards from `f`. -/
def readAt (f : FrameId) (d : Nat) (name : Token) : Exec Value := fun m =>
  ofOption (m.store.getAt f d name.lexeme) (.undefinedVariable name) m

/-- Binds a name in the frame `d` links outwards from `f`. -/
def writeAt (f : FrameId) (d : Nat) (name : Token) (value : Value) : Exec Unit := fun m =>
  assignIn (m.store.ancestor f d) name value m

/-- **A reference is read** by its distance if it has one, and else by its name. -/
theorem readRef_eq (σ : Scoping) (ref : RefId) (name : Token) (m : Machine) :
    readRef σ ref name m =
      match σ with
      | .byName => readFrom m.current name m
      | .byDistance distances =>
        match distances[ref]? with
        | some d => readAt m.current d name m
        | none => readFrom Store.global name m := by
  cases σ with
  | byName => rfl
  | byDistance distances =>
    simp only [readRef]
    cases distances[ref]? <;> rfl

/-- **A reference is written** by its distance if it has one, and else by its name. -/
theorem writeRef_eq (σ : Scoping) (ref : RefId) (name : Token) (value : Value) (m : Machine) :
    writeRef σ ref name value m =
      match σ with
      | .byName => assignFrom m.current name value m
      | .byDistance distances =>
        match distances[ref]? with
        | some d => writeAt m.current d name value m
        | none => assignFrom Store.global name value m := rfl

variable {m : Machine} {f : FrameId} {name : Token} {value : Value}

/-- **An assignment by name** is that of the store, and nothing else changes. -/
theorem assignFrom_eq :
    assignFrom f name value m =
      match m.store.assign? f name.lexeme value with
      | some store => .ok () { m with store }
      | none => .fault (.undefinedVariable name) m := by
  unfold assignFrom Store.assign?
  cases m.store.owner? f name.lexeme <;> rfl

/-- **An assignment by distance**, in the same way. -/
theorem writeAt_eq {d : Nat} :
    writeAt f d name value m =
      match m.store.assignAt? f d name.lexeme value with
      | some store => .ok () { m with store }
      | none => .fault (.undefinedVariable name) m := by
  unfold writeAt Store.assignAt?
  cases m.store.ancestor f d <;> rfl

theorem ofOption_eq_ok {α : Type} {o : Option α} {fault : Fault} {m : Machine} :
    (∃ v, ofOption o fault m = .ok v m) ↔ o.isSome = true := by
  cases o <;> simp [ofOption]

theorem assignFrom_eq_ok :
    (∃ m', assignFrom f name value m = .ok () m') ↔
      (m.store.assign? f name.lexeme value).isSome = true := by
  rw [assignFrom_eq]
  cases m.store.assign? f name.lexeme value <;> simp

theorem writeAt_eq_ok {d : Nat} :
    (∃ m', writeAt f d name value m = .ok () m') ↔
      (m.store.assignAt? f d name.lexeme value).isSome = true := by
  rw [writeAt_eq]
  cases m.store.assignAt? f d name.lexeme value <;> simp

end Exec

/-! ## Operations on frames -/

/-- **An operation on the frames of a store.** -/
inductive FrameOp where
  | new
  | child (f : FrameId)
  | define (f : FrameId) (name : String) (value : Value)
  | get (f : FrameId) (name : Token)
  | getAt (f : FrameId) (d : Nat) (name : Token)
  | assign (f : FrameId) (name : Token) (value : Value)
  | assignAt (f : FrameId) (d : Nat) (name : Token) (value : Value)

namespace FrameOp

open Exec

/-- The frame it is performed on; a frame that nothing encloses is made out of none. -/
def frame? : FrameOp → Option FrameId
  | new => none
  | child f | define f _ _ | get f _ | getAt f _ _ | assign f _ _ | assignAt f _ _ _ => some f

/-- The variable it needs to find. -/
def needs? : FrameOp → Option Token
  | new | child _ | define _ _ _ => none
  | get _ name | getAt _ _ name | assign _ name _ | assignAt _ _ name _ => some name

def perform : FrameOp → Exec Unit
  | new => fun m => .ok () (m.mapStore fun s => (s.newFrame [] none).2)
  | child f => do let _ ← newFrame [] f
  | define f name value => fun m => .ok () (m.mapStore (·.define f name value))
  | get f name => do let _ ← readFrom f name
  | getAt f d name => do let _ ← readAt f d name
  | assign f name value => assignFrom f name value
  | assignAt f d name value => writeAt f d name value

/-- What an operation that succeeds does. -/
inductive Effect (op : FrameOp) (m : Machine) : Machine → Prop
  | added : Effect op m (m.mapStore fun s => (s.newFrame [] op.frame?).2)
  | bound (g : FrameId) (x : String) (v : Value) : Effect op m (m.mapStore (·.define g x v))
  | none : Effect op m m

theorem assignIn_cases (op : FrameOp) (g : Option FrameId) (name : Token) (value : Value)
    (m : Machine) :
    (∃ m', assignIn g name value m = .ok () m' ∧ op.Effect m m') ∨
      assignIn g name value m = .fault (.undefinedVariable name) m := by
  cases g with
  | none => exact .inr rfl
  | some g => exact .inl ⟨_, rfl, .bound g name.lexeme value⟩

theorem read_cases (op : FrameOp) (o : Option Value) (name : Token) (m : Machine) :
    (∃ m', (do let _ ← ofOption o (.undefinedVariable name) : Exec Unit) m = .ok () m' ∧
      op.Effect m m') ∨
      (do let _ ← ofOption o (.undefinedVariable name) : Exec Unit) m =
        .fault (.undefinedVariable name) m := by
  cases o with
  | none => exact .inr rfl
  | some v => exact .inl ⟨m, rfl, .none⟩

/-- **What an operation does**: it succeeds with its effect, or does not find the variable it needs and
leaves everything as it was. -/
theorem perform_cases (op : FrameOp) (m : Machine) :
    (∃ m', op.perform m = .ok () m' ∧ op.Effect m m') ∨
      ∃ name, op.needs? = some name ∧ op.perform m = .fault (.undefinedVariable name) m := by
  cases op with
  | new => exact .inl ⟨_, rfl, .added⟩
  | child f => exact .inl ⟨_, rfl, .added⟩
  | define f x v => exact .inl ⟨_, rfl, .bound f x v⟩
  | get f name => exact (read_cases _ _ name m).imp_right fun h => ⟨name, rfl, h⟩
  | getAt f d name => exact (read_cases _ _ name m).imp_right fun h => ⟨name, rfl, h⟩
  | assign f name v => exact (assignIn_cases _ _ name v m).imp_right fun h => ⟨name, rfl, h⟩
  | assignAt f d name v => exact (assignIn_cases _ _ name v m).imp_right fun h => ⟨name, rfl, h⟩

theorem effect_of_ok {op : FrameOp} {m m' : Machine} (h : op.perform m = .ok () m') :
    op.Effect m m' := by
  rcases perform_cases op m with ⟨m₁, h₁, heffect⟩ | ⟨name, -, h₁⟩
  · rw [h] at h₁
    cases h₁
    exact heffect
  · rw [h] at h₁
    cases h₁

/-- **An operation that fails changes nothing.** -/
theorem fault_unchanged {op : FrameOp} {m m' : Machine} {fault : Fault}
    (h : op.perform m = .fault fault m') : m' = m := by
  rcases perform_cases op m with ⟨m₁, h₁, -⟩ | ⟨name, -, h₁⟩
  · rw [h] at h₁
    cases h₁
  · rw [h] at h₁
    cases h₁
    rfl

end FrameOp

/-- **The frames have been built by operations**, each on a frame there was, out of none. -/
inductive Built : Machine → Prop
  | empty {m : Machine} (h : m.store.frames = #[]) : Built m
  | done {m m' : Machine} (op : FrameOp) (hm : Built m)
      (hop : ∀ f, op.frame? = some f → f < m.store.frames.size) (h : op.perform m = .ok () m') :
      Built m'
  | failed {m m' : Machine} {fault : Fault} (op : FrameOp) (hm : Built m)
      (hop : ∀ f, op.frame? = some f → f < m.store.frames.size)
      (h : op.perform m = .fault fault m') : Built m'

/-- An operation keeps links leading to earlier frames. -/
theorem FrameOp.Effect.links {op : FrameOp} {m m' : Machine} (h : op.Effect m m')
    (hop : ∀ f, op.frame? = some f → f < m.store.frames.size)
    (hlinks : ∀ f g, m.store.enclosing? f = some g → g < f) (f g : FrameId)
    (hg : m'.store.enclosing? f = some g) : g < f := by
  cases h with
  | added =>
    change (m.store.newFrame [] op.frame?).2.enclosing? f = some g at hg
    rw [Store.enclosing?_newFrame] at hg
    split_ifs at hg with hf
    · rw [hf]
      exact hop g hg
    · exact hlinks f g hg
  | bound o x v =>
    change (m.store.define o x v).enclosing? f = some g at hg
    rw [Store.enclosing?_define] at hg
    exact hlinks f g hg
  | none => exact hlinks f g hg

/-- **Links lead to earlier frames**, by induction on the operations. -/
theorem Built.links {m : Machine} (h : Built m) :
    ∀ f g, m.store.enclosing? f = some g → g < f := by
  induction h with
  | empty hframes =>
    intro f g hg
    have hlt := Store.enclosing?_lt hg
    rw [hframes] at hlt
    exact absurd hlt (Nat.not_lt_zero f)
  | done _ _ hop hrun ih => exact (FrameOp.effect_of_ok hrun).links hop ih
  | failed _ _ _ hrun ih => rwa [FrameOp.fault_unchanged hrun]

/-! ## The two ways agree -/

open Exec

/-- **One binding changes**: what `owner` binds `x` to. From a frame that is seen where `x` leads to
`owner`. -/
structure Rebinds (m m' : Machine) (owner : FrameId) (x : String) (v : Value) : Prop where
  get? (g : FrameId) (y : String) :
    m'.store.get? g y = if g = owner ∧ y = x then some v else m.store.get? g y
  enclosing? (g : FrameId) : m'.store.enclosing? g = m.store.enclosing? g
  size : m'.store.frames.size = m.store.frames.size
  instances : m'.store.instances = m.store.instances
  rest : { m' with store := m.store } = m
  seen (f : FrameId) (y : String) :
    m'.store.lookup f y =
      if y = x ∧ m.store.owner? f x = some owner then some v else m.store.lookup f y

theorem rebinds_define {m : Machine} {owner : FrameId} {x : String}
    (h : (m.store.get? owner x).isSome = true) (v : Value) :
    Rebinds m (m.mapStore (·.define owner x v)) owner x v where
  get? g y := by
    change (m.store.define owner x v).get? g y = _
    rw [Store.get?_define]
    simp [Store.get?_lt h]
  enclosing? := Store.enclosing?_define owner x v m.store
  size := Store.size_define owner x v m.store
  instances := rfl
  rest := rfl
  seen := Store.lookup_define h v

/-- **The least distance does what the name does**: `owner` is the frame at the distance `d`. -/
structure Nearest (m : Machine) (f : FrameId) (d : Nat) (name : Token) (owner : FrameId)
    (value : Value) : Prop where
  ancestor : m.store.ancestor f d = some owner
  get? : m.store.get? owner name.lexeme = some value
  lookup : m.store.lookup f name.lexeme = some value
  getAt : m.store.getAt f d name.lexeme = some value
  assign? (v : Value) :
    m.store.assign? f name.lexeme v = some (m.store.define owner name.lexeme v)
  assignAt? (v : Value) :
    m.store.assignAt? f d name.lexeme v = some (m.store.define owner name.lexeme v)
  readFrom : readFrom f name m = .ok value m
  readAt : readAt f d name m = .ok value m
  writes (v : Value) : ∃ m',
    assignFrom f name v m = .ok () m' ∧ writeAt f d name v m = .ok () m' ∧
      Rebinds m m' owner name.lexeme v ∧
      Exec.readFrom f name m' = .ok v m' ∧ Exec.readAt f d name m' = .ok v m'

/-- **By name and by distance**, from a frame with the chain `fs`. -/
structure Agree (m : Machine) (f : FrameId) (fs : List FrameId) (name : Token) : Prop where
  /-- The first binding along the chain is found. -/
  lookup : m.store.lookup f name.lexeme = fs.findSome? (m.store.get? · name.lexeme)
  reads : (∃ v, readFrom f name m = .ok v m) ↔ (m.store.lookup f name.lexeme).isSome = true
  assigns (v : Value) :
    (∃ m', assignFrom f name v m = .ok () m') ↔ (m.store.lookup f name.lexeme).isSome = true
  nearest (d : Nat) (h : IsLeast {d | (m.store.getAt f d name.lexeme).isSome = true} d) :
    ∃ owner value, Nearest m f d name owner value
  /-- A frame is lacking beyond the last link of the chain. -/
  lacks (d : Nat) : m.store.ancestor f d = none ↔ fs.length - 1 < d
  reads_at (d : Nat) : (∃ v, readAt f d name m = .ok v m) ↔
    ∃ g, fs[d]? = some g ∧ (m.store.get? g name.lexeme).isSome = true
  assigns_at (d : Nat) (v : Value) : (∃ m', writeAt f d name v m = .ok () m') ↔ d < fs.length

theorem nearest_of_least {m : Machine} {f : FrameId} {d : Nat} {name : Token}
    (hlinks : ∀ f g, m.store.enclosing? f = some g → g < f)
    (h : IsLeast {d | (m.store.getAt f d name.lexeme).isSome = true} d) :
    ∃ owner value, Nearest m f d name owner value := by
  have hlookup := Store.lookup_eq_getAt hlinks h
  obtain ⟨value, hgetAt⟩ := Option.isSome_iff_exists.mp h.1
  obtain ⟨owner, hancestor, hget⟩ := Option.bind_eq_some_iff.mp hgetAt
  have howner : m.store.owner? f name.lexeme = some owner :=
    (Store.owner?_eq_ancestor hlinks h).trans hancestor
  have hassignAt (v : Value) :
      m.store.assignAt? f d name.lexeme v = some (m.store.define owner name.lexeme v) := by
    rw [Store.assignAt?, hancestor, Option.map_some]
  have hassign (v : Value) := (Store.assign?_eq_assignAt? hlinks h v).trans (hassignAt v)
  have hrebinds (v : Value) := rebinds_define (Option.isSome_of_eq_some hget) v
  refine ⟨owner, value, ⟨hancestor, hget, hlookup.trans hgetAt, hgetAt, hassign, hassignAt, ?_, ?_,
    fun v => ?_⟩⟩
  · simp only [Exec.readFrom, hlookup, hgetAt, ofOption]
  · simp only [Exec.readAt, hgetAt, ofOption]
  · refine ⟨_, ?_, ?_, hrebinds v, ?_, ?_⟩
    · rw [assignFrom_eq, hassign]
      rfl
    · rw [writeAt_eq, hassignAt]
      rfl
    · have hseen := (hrebinds v).seen f name.lexeme
      rw [if_pos ⟨rfl, howner⟩] at hseen
      simp only [Exec.readFrom, hseen, ofOption]
    · have hgot := (hrebinds v).get? owner name.lexeme
      rw [if_pos ⟨rfl, rfl⟩] at hgot
      have hat :
          (m.mapStore (·.define owner name.lexeme v)).store.getAt f d name.lexeme = some v := by
        unfold Store.getAt
        change ((m.store.define owner name.lexeme v).ancestor f d).bind _ = _
        rw [Store.ancestor_define, hancestor, Option.bind_some, hgot]
      simp only [Exec.readAt, hat, ofOption]

/-- **By name or by distance, a variable is the same.** In a store that operations have built, every
frame has one chain; along it the two ways agree, and an operation that does not succeed leaves
everything as it was. -/
theorem name_or_distance {m : Machine} (hm : Built m) :
    (∀ f < m.store.frames.size, ∃! fs, m.store.Chain f fs) ∧
    (∀ f < m.store.frames.size, ∀ fs, m.store.Chain f fs → ∀ name, Agree m f fs name) ∧
    ∀ op : FrameOp, (∃ m', op.perform m = .ok () m') ∨
      ∃ name, op.needs? = some name ∧ op.perform m = .fault (.undefinedVariable name) m := by
  have hlinks := hm.links
  refine ⟨fun f _ => ?_, fun f _ fs hfs name => ?_, fun op => ?_⟩
  · obtain ⟨fs, hfs⟩ := Store.exists_chain hlinks f
    exact ⟨fs, hfs, fun gs hgs => hfs.unique hgs⟩
  · exact
      { lookup := hfs.lookup hlinks name.lexeme
        reads := ofOption_eq_ok
        assigns := fun v => by rw [assignFrom_eq_ok, Store.isSome_assign?]
        nearest := fun d => nearest_of_least hlinks
        lacks := fun d => by
          have := hfs.length_pos
          rw [hfs.ancestor_eq_none]
          omega
        reads_at := fun d => by
          refine ofOption_eq_ok.trans ?_
          rw [Store.getAt, hfs.ancestor]
          cases fs[d]? <;> simp
        assigns_at := fun d v => by
          rw [writeAt_eq_ok, Store.isSome_assignAt?, ← Nat.not_le, ← hfs.ancestor_eq_none, ← ne_eq,
            Option.ne_none_iff_isSome] }
  · exact (FrameOp.perform_cases op m).imp_left fun ⟨m', hrun, _⟩ => ⟨m', hrun⟩

/-- Two frames inside each other that both bind `a`, one more inside both and one inside the outer. -/
def shadowed : Machine where
  store :=
    { frames := #[⟨[("a", .bool false)], none⟩, ⟨[("a", .bool true)], some 0⟩, ⟨[], some 1⟩,
        ⟨[], some 0⟩]
      instances := #[] }
  current := 0
  nextId := 0
  output := #[]
  capacity := none
  clock := .nan

theorem built_shadowed : Built shadowed := by
  have h₀ : Built { shadowed with store := ⟨#[], #[]⟩ } := .empty rfl
  have h₁ := h₀.done .new (by rintro f ⟨⟩) rfl
  have h₂ := h₁.done (.define 0 "a" (.bool false)) (by rintro f ⟨⟩; decide) rfl
  have h₃ := h₂.done (.child 0) (by rintro f ⟨⟩; decide) rfl
  have h₄ := h₃.done (.child 1) (by rintro f ⟨⟩; decide) rfl
  have h₅ := h₄.done (.child 0) (by rintro f ⟨⟩; decide) rfl
  have h₆ := h₅.done (.define 1 "a" .null) (by rintro f ⟨⟩; decide) rfl
  exact h₆.done (.assign 2 ⟨.symbol .identifier, "a", 1⟩ (.bool true))
    (by rintro f ⟨⟩; decide) rfl

theorem name_or_distance_shadowed :
    Built shadowed ∧ shadowed.store.Chain 2 [2, 1, 0] ∧
      Agree shadowed 2 [2, 1, 0] ⟨.symbol .identifier, "a", 1⟩ ∧
      ∃ owner value, Nearest shadowed 2 1 ⟨.symbol .identifier, "a", 1⟩ owner value := by
  have hchain : shadowed.store.Chain 2 [2, 1, 0] := .inside rfl (.inside rfl (.outermost rfl))
  have hagree :=
    (name_or_distance built_shadowed).2.1 2 (by decide) _ hchain ⟨.symbol .identifier, "a", 1⟩
  refine ⟨built_shadowed, hchain, hagree, hagree.nearest 1 ⟨rfl, fun d hd => ?_⟩⟩
  cases d with
  | zero => cases hd
  | succ d => exact Nat.succ_le_succ (Nat.zero_le d)

end Scriptlet
