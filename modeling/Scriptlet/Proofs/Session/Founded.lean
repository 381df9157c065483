import Scriptlet.Proofs.Run.Growth
import Scriptlet.Proofs.Session.Answer

/-!
# Links lead backwards

Frames, closures, bound methods and instances refer to each other in circles, but two kinds of links
never do: a frame is enclosed by one that was made before it, and a class was made after its
superclass. Both follow from the invariant of `Ownership`, for a run that began with nothing but the
global frame and the built-in modules: all else has been made, out of what was there before.

So a search along such links comes to an end (`Search`, with the number of moves it takes), and so do
looking names up, assigning to them, going a number of frames outwards, and looking for methods.

The states are those of every session, and more (`Passed`): programs need not be parsed and distances
need not be those of the program.

Results:
* `Passed.founded`: **links lead to earlier frames, and superclasses are earlier classes.**
* `Founded.terminates`: searches come to an end, and all links lead to the global frame.
* `heap_well_founded`: both in every state of every session, and **the store only grows.**
-/

namespace Scriptlet

/-! ## Searches -/

/-- **A search from place to place**, up to the first where something is found: its moves, where it
starts and what it gives. -/
inductive Search {α β : Type} (found : α → Option β) (next : α → Option α) :
    Nat → α → Option β → Prop
  | here {a b} (h : found a = some b) : Search found next 0 a (some b)
  | nowhere {a} (h : found a = none) (hnext : next a = none) : Search found next 0 a none
  | onwards {k a b r} (h : found a = none) (hnext : next a = some b)
      (rest : Search found next k b r) : Search found next (k + 1) a r

/-- A function that looks here and then onwards gives the result of the search, if the places come
down. -/
theorem exists_search {α β : Type} {found : α → Option β} {next : α → Option α}
    {result : α → Option β} (P : α → Prop) (height : α → Nat)
    (hresult : ∀ a, P a → result a = (found a).or ((next a).bind result))
    (hnext : ∀ a b, P a → next a = some b → P b ∧ height b < height a) {a : α} (ha : P a) :
    ∃ k ≤ height a, Search found next k a (result a) := by
  induction hheight : height a using Nat.strong_induction_on generalizing a with
  | _ h ih =>
    subst hheight
    rw [hresult a ha]
    cases hfound : found a with
    | some b => exact ⟨0, Nat.zero_le _, .here hfound⟩
    | none =>
      cases hb : next a with
      | none => exact ⟨0, Nat.zero_le _, .nowhere hfound hb⟩
      | some b =>
        obtain ⟨hPb, hlt⟩ := hnext a b ha hb
        obtain ⟨k, hk, hsearch⟩ := ih _ hlt hPb rfl
        exact ⟨k + 1, Nat.lt_of_le_of_lt hk hlt, .onwards hfound hb hsearch⟩

namespace Store

variable {s : Store} (hlinks : ∀ f g, s.enclosing? f = some g → g < f)
include hlinks

theorem owner?_eq_or (f : FrameId) (x : String) :
    s.owner? f x = (if (s.get? f x).isSome then some f else none).or
      ((s.enclosing? f).bind fun g => s.owner? g x) := by
  rw [owner?_eq hlinks]
  split_ifs <;> rfl

theorem lookup_eq_or (f : FrameId) (x : String) :
    s.lookup f x = (s.get? f x).or ((s.enclosing? f).bind fun g => s.lookup g x) := by
  unfold lookup
  rw [owner?_eq hlinks]
  cases hget : s.get? f x with
  | some v => simp [hget]
  | none => simp [Option.bind_assoc]

/-- **From every frame the links lead to the global frame**, if it is the only one without. -/
theorem exists_ancestor_global (houtermost : ∀ f < s.frames.size, s.enclosing? f = none ↔ f = global)
    {f : FrameId} (hf : f < s.frames.size) :
    ∃ k ≤ f, s.ancestor f k = some global ∧ ∀ d, (s.ancestor f d).isSome = true ↔ d ≤ k := by
  induction f using Nat.strong_induction_on with
  | _ f ih =>
    cases hg : s.enclosing? f with
    | none =>
      obtain rfl := (houtermost f hf).mp hg
      refine ⟨0, Nat.zero_le _, rfl, fun d => ?_⟩
      cases d <;> simp [ancestor, hg]
    | some g =>
      have hlt := hlinks f g hg
      obtain ⟨k, hk, hglobal, hsome⟩ := ih g hlt (Nat.lt_trans hlt hf)
      refine ⟨k + 1, Nat.lt_of_le_of_lt hk hlt, by rw [ancestor_succ hg, hglobal], fun d => ?_⟩
      cases d with
      | zero => simp [ancestor]
      | succ d => rw [ancestor_succ hg, hsome, Nat.succ_le_succ_iff]

end Store

/-- The class is bound to a name, in a field, or the class of an instance. -/
def Store.HasClass (s : Store) (c : Class) : Prop :=
  (∃ f x, s.get? f x = some (.cls c)) ∨ (∃ i x, s.field? i x = some (.cls c)) ∨
    ∃ i, s.class? i = some c

namespace Run

variable {m m' : Machine}

/-! ## States that are passed -/

/-- **A machine on which nothing runs**: at the beginning, after a program, at another time. -/
inductive Rests : Machine → Prop
  | initial (clock : Number) (capacity : Option Nat) : Rests (.initial clock capacity)
  | ran {σ : Scoping} {n : Nat} {program : List Stmt} {m m' : Machine} (h : Rests m)
      (hrun : (interpret σ n program m).machine? = some m') : Rests m'
  | waited {m : Machine} (h : Rests m) (clock : Number) : Rests { m with clock }

/-- **A machine that is passed**: nothing runs on it, or it is in the middle of the run of a program,
when a computation starts, when it ends, or between its operations. -/
inductive Passed : Machine → Prop
  | rests {m : Machine} (h : Rests m) : Passed m
  | starts {σ : Scoping} {n : Nat} {program : List Stmt} {m : Machine} {b : Moment} (h : Rests m)
      (hrun : Reaches σ ⟨n, .program program, m⟩ b) : Passed b.machine
  | ends {σ : Scoping} {n : Nat} {program : List Stmt} {m m' : Machine} {b : Moment} (h : Rests m)
      (hrun : Reaches σ ⟨n, .program program, m⟩ b) (hend : b.end? σ = some m') : Passed m'
  | midway {σ : Scoping} {n : Nat} {program : List Stmt} {m m' : Machine} {b : Moment}
      (h : Rests m) (hrun : Reaches σ ⟨n, .program program, m⟩ b) (hmid : Midway σ b m') :
      Passed m'

/-- All runs begin with the global frame and the built-in modules. -/
def Origin.initial : Origin := ⟨Store.initial, 0, (· = .frame Store.global), rfl⟩

/-- A program ends as its statements do; after a fault the current frame is the global one. -/
theorem end_of_interpret {σ : Scoping} {n : Nat} {program : List Stmt}
    (h : (interpret σ n program m).machine? = some m') :
    ∃ m₁, (execProgram σ n program m).machine? = some m₁ ∧
      (m' = m₁ ∨ m' = { m₁ with current := Store.global }) := by
  unfold interpret at h
  cases hr : execProgram σ n program m with
  | ok _ m₁ =>
    rw [hr] at h
    cases h
    exact ⟨_, rfl, .inl rfl⟩
  | fault f m₁ =>
    rw [hr] at h
    cases h
    exact ⟨m₁, rfl, .inr rfl⟩
  | exhausted =>
    rw [hr] at h
    cases h

/-- **Every moment of the run of a program comes after its start and before its end.** -/
theorem later_of_interpret {σ : Scoping} {n : Nat} {program : List Stmt} {b : Moment}
    (hrun : Reaches σ ⟨n, .program program, m⟩ b)
    (hend : (interpret σ n program m).machine? = some m') :
    Later m b.machine ∧ Later b.machine m' := by
  obtain ⟨m₁, h₁, heq⟩ := end_of_interpret hend
  obtain ⟨m₂, h₂, hlater⟩ := hrun.later_end h₁
  have hstore : m'.store = m₁.store := by rcases heq with rfl | rfl <;> rfl
  exact ⟨hrun.later, (hlater.tail (.idles hstore)).head (.ends h₂)⟩

theorem Rests.inside (h : Rests m) : Inside .initial m := by
  induction h with
  | initial clock capacity => exact ⟨.start .initial, .before ⟨_, rfl, .refl⟩⟩
  | ran _ hrun ih =>
    obtain ⟨m₁, h₁, heq⟩ := end_of_interpret hrun
    have hproceeds := (ih.confined_execProgram _).proceeds h₁
    rcases heq with rfl | rfl
    · exact ih.after hproceeds
    · exact hproceeds.enter (ih.after hproceeds).global
  | waited _ clock ih => exact ⟨ih.confines, ih.current⟩

theorem Passed.inside (h : Passed m) : Inside .initial m := by
  cases h with
  | rests h => exact h.inside
  | starts h hrun => exact (hrun.ready ⟨h.inside, trivial⟩).inside
  | ends h hrun hend =>
    have hready := hrun.ready ⟨h.inside, trivial⟩
    exact hready.inside.after (hready.ends hend)
  | midway h hrun hmid => exact hmid.inside (hrun.ready ⟨h.inside, trivial⟩)

/-! ## Earlier frames and classes -/

/-- **Links lead to earlier frames, and only the global frame has none; the current frame is there; of
the superclasses of a class, each was made before those below it.** -/
structure Founded (m : Machine) : Prop where
  enclosing (f g : FrameId) (h : m.store.enclosing? f = some g) : g < f
  outermost (f : FrameId) (hf : f < m.store.frames.size) :
    m.store.enclosing? f = none ↔ f = Store.global
  current : m.current < m.store.frames.size
  superclasses (c : Class) (h : m.store.HasClass c) :
    c.chain.Pairwise fun k parent => parent.id < k.id

theorem reaches_initial {it : Item} (h : Origin.initial.Reaches it) :
    it = .frame Store.global ∨ (∃ l, it = .value (.library l)) ∨ ∃ f, it = .value (.native f) :=
  builtin_of_reachable rfl h

theorem not_reaches_class (c : Class) : ¬ Origin.initial.Reaches (.value (.cls c)) := by
  intro h
  obtain h | ⟨l, h⟩ | ⟨f, h⟩ := reaches_initial h <;> cases h

theorem reaches_frame_eq {f : FrameId} (h : Origin.initial.Reaches (.frame f)) :
    f = Store.global := by
  obtain h | ⟨l, h⟩ | ⟨f, h⟩ := reaches_initial h <;> cases h
  rfl

/-- The superclasses of a class that has been made were made before it. -/
theorem Owned.pairwise_chain {n : Extent} {c : Class} (h : Owned .initial n (.value (.cls c))) :
    c.chain.Pairwise (fun k parent => parent.id < k.id) ∧ ∀ k ∈ c.chain, k.id ≤ c.id := by
  fun_induction Class.chain c with
  | case1 => simp
  | case2 id name parent methods ih =>
    have hlt : parent.id < id := by
      cases h with
      | before h => exact absurd h (not_reaches_class _)
      | plain h => cases h
      | cls _ _ _ _ hearlier => exact (hearlier parent rfl).resolve_left (not_reaches_class _)
    obtain ⟨hpairwise, hle⟩ := ih (h.link (s := Store.initial) (.superclass rfl) nofun nofun)
    refine ⟨List.pairwise_cons.mpr ⟨fun k hk => Nat.lt_of_le_of_lt (hle k hk) hlt, hpairwise⟩,
      fun k hk => ?_⟩
    rcases List.mem_cons.mp hk with rfl | hk
    · exact Nat.le_refl _
    · exact Nat.le_of_lt (Nat.lt_of_le_of_lt (hle k hk) hlt)

/-- Every frame and every instance that is there has been made, the global frame apart. -/
theorem Inside.owns_frame (_ : Inside .initial m) {f : FrameId} (hf : f < m.store.frames.size) :
    Owned .initial m.extent (.frame f) := by
  cases f with
  | zero => exact .before ⟨_, rfl, .refl⟩
  | succ f => exact .frame (Nat.succ_le_succ (Nat.zero_le f)) hf

theorem Inside.owns_class (h : Inside .initial m) {c : Class} (hc : m.store.HasClass c) :
    Owned .initial m.extent (.value (.cls c)) := by
  obtain ⟨f, x, hget⟩ | ⟨i, x, hfield⟩ | ⟨i, hclass⟩ := hc
  · exact h.confines.bound (h.owns_frame (Store.get?_lt (Option.isSome_of_eq_some hget))) hget
  · have hlt := Store.field?_lt (Option.isSome_of_eq_some hfield)
    exact h.confines.field (.object (Nat.zero_le i) hlt) hfield
  · exact h.confines.cls (.object (Nat.zero_le i) (Store.class?_lt hclass)) hclass

/-- **The invariant of runs makes links lead backwards.** -/
theorem Inside.founded (h : Inside .initial m) : Founded m := by
  have hsize : 0 < m.store.frames.size := h.confines.grows.frames
  have hglobal : m.store.enclosing? Store.global = none :=
    h.confines.grows.enclosing Store.global Nat.zero_lt_one
  have hinner (f : FrameId) (hf : f < m.store.frames.size) (hne : f ≠ Store.global) :
      ∃ g, m.store.enclosing? f = some g ∧ g < f := by
    obtain ⟨g, hg, hreached | hlt⟩ := h.confines.outer (Nat.pos_of_ne_zero hne) hf
    · exact ⟨g, hg, reaches_frame_eq hreached ▸ Nat.pos_of_ne_zero hne⟩
    · exact ⟨g, hg, hlt⟩
  refine ⟨fun f g hg => ?_, fun f hf => ⟨fun hnone => ?_, ?_⟩, ?_, fun c hc => ?_⟩
  · have hne : f ≠ Store.global := by
      rintro rfl
      rw [hglobal] at hg
      cases hg
    obtain ⟨g', hg', hlt⟩ := hinner f (Store.enclosing?_lt hg) hne
    cases hg.symm.trans hg'
    exact hlt
  · by_contra hne
    obtain ⟨g, hg, -⟩ := hinner f hf hne
    rw [hnone] at hg
    cases hg
  · rintro rfl
    exact hglobal
  · obtain hreached | hnew := Owned.frame_iff.mp h.current
    · rw [reaches_frame_eq hreached]
      exact hsize
    · exact hnew.2
  · exact (h.owns_class hc).pairwise_chain.1

/-! ## Searches end -/

/-- **Searches along links come to an end**, after at most as many moves as there are earlier frames or
classes. -/
structure Terminates (m : Machine) : Prop where
  /-- All links lead to the global frame, and there are no more than those. -/
  ancestor (f : FrameId) (hf : f < m.store.frames.size) :
    ∃ k ≤ f, m.store.ancestor f k = some Store.global ∧
      ∀ d, (m.store.ancestor f d).isSome = true ↔ d ≤ k
  lookup (f : FrameId) (x : String) :
    ∃ k ≤ f, Search (m.store.get? · x) m.store.enclosing? k f (m.store.lookup f x)
  /-- The frame whose binding is changed by an assignment. -/
  assign (f : FrameId) (x : String) :
    ∃ k ≤ f, Search (fun g => if (m.store.get? g x).isSome then some g else none)
      m.store.enclosing? k f (m.store.owner? f x)
  findMethod (c : Class) (hc : m.store.HasClass c) (name : String) :
    ∃ k ≤ c.id, Search (fun k : Class => k.methods.find? (·.name == name)) Class.superclass k c
      (c.findMethod name)

theorem Founded.terminates (h : Founded m) : Terminates m where
  ancestor f hf := Store.exists_ancestor_global h.enclosing h.outermost hf
  lookup f x :=
    exists_search (fun _ => True) id
      (fun g _ => Store.lookup_eq_or h.enclosing g x)
      (fun g g' _ hg => ⟨trivial, h.enclosing g g' hg⟩) trivial
  assign f x :=
    exists_search (fun _ => True) id
      (fun g _ => Store.owner?_eq_or h.enclosing g x)
      (fun g g' _ hg => ⟨trivial, h.enclosing g g' hg⟩) trivial
  findMethod c hc name := by
    refine exists_search (fun c : Class => c.chain.Pairwise fun k parent => parent.id < k.id)
      Class.id (fun c _ => Class.findMethod_eq_or name c) (fun c parent hc hparent => ?_)
      (h.superclasses c hc)
    obtain ⟨id, cname, superclass, methods⟩ := c
    cases (show superclass = some parent from hparent)
    obtain ⟨hlt, hrest⟩ := List.pairwise_cons.mp hc
    exact ⟨hrest, hlt parent parent.mem_chain_self⟩

end Run

namespace Session

open Run

variable {s t : Session}

/-! ## Sessions -/

theorem rests_run {steps : Nat} {source : String} {outcome : Outcome} (h : Rests s.machine)
    (hrun : s.run steps source = some (outcome, t)) : Rests t.machine := by
  by_cases hreports : (compile source s.nextRef).reports = []
  · rw [run_eq_execute steps hreports, execute] at hrun
    split at hrun
    · rename_i hr
      cases hrun
      exact h.ran (congrArg Result.machine? hr)
    · rename_i hr
      cases hrun
      exact h.ran (congrArg Result.machine? hr)
    · cases hrun
  · rw [run_eq_rejected steps hreports] at hrun
    cases hrun
    exact h

/-- Between its chunks, a session rests. -/
theorem rests_after {cs : List Chunk} (h : Rests s.machine) (hafter : s.after cs = some t) :
    Rests t.machine := by
  induction cs generalizing s with
  | nil =>
    cases hafter
    exact h
  | cons c cs ih =>
    obtain ⟨⟨a, u⟩, hanswer, hrest⟩ := Option.bind_eq_some_iff.mp hafter
    obtain ⟨⟨outcome, u'⟩, hrun, heq⟩ := Option.map_eq_some_iff.mp hanswer
    cases heq
    exact ih (rests_run (h.waited c.clock) hrun) hrest

/-- **The heap is well founded and only grows.**

A session rests between its chunks. In every state that is passed from there on, whatever programs are
run and whatever the distances: links lead to earlier frames, and superclasses are earlier classes. So
looking a name up, assigning to it, going outwards and looking for a method come to an end, and the
links of every frame lead to the global one. In every later state the frames and instances are still
there, with the same links and the same classes, and what was bound is bound; all moments of a run
come one after the other in that sense, between its start and its end. -/
theorem heap_well_founded :
    (∀ clock capacity cs s, (start clock capacity).after cs = some s → Rests s.machine) ∧
    (∀ m, Passed m → Founded m ∧ Terminates m) ∧
    (∀ m m', Later m m' → m.store.Grows m'.store) ∧
    ∀ σ n program m b m', Reaches σ ⟨n, .program program, m⟩ b →
      (interpret σ n program m).machine? = some m' → Later m b.machine ∧ Later b.machine m' := by
  refine ⟨fun clock capacity cs s hafter => ?_, fun m h => ?_, fun m m' h => h.grows,
    fun σ n program m b m' => later_of_interpret⟩
  · exact rests_after (.initial clock capacity) hafter
  · exact ⟨h.inside.founded, h.inside.founded.terminates⟩

/-- The name of the superclass, if the value is a class that has one. -/
def superclassName? : Value → Option String
  | .cls c => c.superclass.map (·.name)
  | _ => none

theorem superclassName?_eq_some {v : Value} {x : String} (h : superclassName? v = some x) :
    ∃ c, v = .cls c ∧ c.superclass.map (·.name) = some x := by
  cases v with
  | cls c => exact ⟨c, rfl, h⟩
  | _ => cases h

/-- A class and its superclass, after they have been declared, and a frame that is made later. -/
theorem heap_well_founded_subclass :
    let cs : List Chunk := [⟨.nan, 9, "class A{}class B extends A{}"⟩]
    let program : List Stmt := [.block []]
    ∃ s c m', (start .nan none).after cs = some s ∧
      s.machine.store.get? Store.global "B" = some (.cls c) ∧
      c.superclass.map (·.name) = some "A" ∧ Founded s.machine ∧ Terminates s.machine ∧
      (interpret s.scoping 2 program s.machine).machine? = some m' ∧ Later s.machine m' ∧
      s.machine.store.Grows m'.store := by
  intro cs program
  have hrun : (((start .nan none).after cs).bind fun s =>
      (s.machine.store.get? Store.global "B").bind superclassName?) = some "A" := by
    decide +kernel
  obtain ⟨s, hs, hsuperclass⟩ := Option.bind_eq_some_iff.mp hrun
  obtain ⟨v, hv, hsuperclass⟩ := Option.bind_eq_some_iff.mp hsuperclass
  obtain ⟨c, rfl, hname⟩ := superclassName?_eq_some hsuperclass
  obtain ⟨hrests, hfounded, hgrows, hbetween⟩ := heap_well_founded
  obtain ⟨hfounded, hterminates⟩ := hfounded _ (.rests (hrests _ _ _ _ hs))
  have hlater := (hbetween s.scoping 2 program s.machine _ _ .refl rfl).2
  exact ⟨s, c, _, hs, hv, hname, hfounded, hterminates, rfl, hlater, hgrows _ _ hlater⟩

end Session

end Scriptlet
