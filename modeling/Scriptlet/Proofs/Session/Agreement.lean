import Scriptlet.Proofs.Run.Plan
import Scriptlet.Proofs.Session.History

/-!
# The walk and the run agree

Scopes are opened and closed by the walk over a program, frames by its run, long after and in
another order: closures are called when the walk has left their scopes, perhaps in a later chunk. At
every moment of a run they agree all the same.

Results:
* `Session.passes_iff_mem`: the moments of a run, as a list.
* `Session.scopes_agree`: **there are as many frames as there were scopes**, and the frame at the
  distance of a reference binds its name.
* `Session.no_internal_fault`: so the faults that only a wrong distance could cause never happen.
-/

namespace Scriptlet

open Scope Run Exec

namespace Run

/-- The node of the tree that a computation is about. -/
def Task.node? : Task → Option Code
  | .exec st => some (.stmt st)
  | .eval e => some (.expr e)
  | .write ref name e _ => some (.expr (.assign ref name e))
  | _ => none

theorem TaskFits.at_node {W : World} {Λ : Layout} {m : Machine} {t : Task} {code : Code}
    (h : TaskFits W Λ m t) (hcode : t.node? = some code) : ∃ v, At W Λ m v ∧ v.code = code := by
  cases t with
  | exec st =>
    cases hcode
    obtain ⟨s, ns, hat⟩ := h
    exact ⟨_, hat, rfl⟩
  | eval e =>
    cases hcode
    obtain ⟨s, ns, hat⟩ := h
    exact ⟨_, hat, rfl⟩
  | write ref name e value =>
    cases hcode
    obtain ⟨-, s, ns, hat⟩ := h
    exact ⟨_, hat, rfl⟩
  | _ => cases hcode

end Run

namespace Session

variable {s s' : Session} {ps : List (List Stmt)} {source : String}

/-- A run of the chunk in the session passes through this moment. -/
def Passes (s : Session) (source : String) (a : Moment) : Prop :=
  let c := compile source s.nextRef
  ∃ steps, Reaches (s.keep c).scoping ⟨steps, .program c.program, s.machine⟩ a

/-- The moments of a run of the chunk, up to so many starts from its beginning. -/
def moments (s : Session) (source : String) (steps depth : Nat) : List Moment :=
  let c := compile source s.nextRef
  Moment.reached (s.keep c).scoping depth ⟨steps, .program c.program, s.machine⟩

theorem passes_iff_mem {a : Moment} :
    s.Passes source a ↔ ∃ steps depth, a ∈ s.moments source steps depth :=
  exists_congr fun _ => reaches_iff_mem

/-- A run passes through a moment of a sort that is found in the list. -/
theorem passes_of_any (s : Session) (source : String) (p : Moment → Bool) (steps depth : Nat)
    (h : (s.moments source steps depth).any p = true) : ∃ a, s.Passes source a ∧ p a = true := by
  obtain ⟨a, ha, hp⟩ := List.any_eq_true.mp h
  exact ⟨a, passes_iff_mem.mpr ⟨steps, depth, ha⟩, hp⟩

/-- The invariant holds at every moment of a chunk. -/
theorem Passes.fits {a : Moment} (h : Fits s ps)
    (hreports : (compile source s.nextRef).reports = []) (ha : s.Passes source a) :
    ∃ Λ, TaskFits (h.keep hreports).world Λ a.machine a.task := by
  obtain ⟨steps, hreach⟩ := ha
  obtain ⟨Λ, hheap⟩ := (h.keep hreports).heap
  refine Reaches.fits hreach ⟨Λ, {}, [], ?_⟩
  exact at_program List.mem_cons_self hheap h.current

/-- **Frames stand for the scopes of a visit**, in one of the session's programs. -/
structure Agrees (programs : List (List Stmt)) (distances : Distances) (m : Machine)
    (program : List Stmt) (v : Visit) : Prop where
  visits : Visits program v
  /-- A part that has a reference in it is visited once in all the programs. -/
  once (program' : List Stmt) (v' : Visit) : program' ∈ programs → Visits program' v' →
    v'.code = v.code → v.code.refs ≠ [] → v' = v
  /-- The links from the current frame to the global one are as many as the open scopes. -/
  links (k : Nat) : m.store.ancestor m.current k = some Store.global ↔ k = v.state.scopes.length
  /-- The frame at the distance of a reference is there and binds the name, unless the part assigns
  to it in the initializer of that very local variable. -/
  bound (ref : RefId) (name : Token) (d : Nat) : Refers v.code ref name →
    distances[ref]? = some d → ∃ g, m.store.ancestor m.current d = some g ∧
      ((m.store.get? g name.lexeme).isSome = true ∨
        (∃ e, v.code = .expr (.assign ref name e)) ∧ OwnInitializer program v name.lexeme)

/-- **The frames of a run stand for the scopes of the walk**, whenever a run of a chunk without
reports comes to a node of a tree, whatever happened in the session before. -/
theorem scopes_agree {a : Moment} {code : Code} (hs : History s ps)
    (hreports : (compile source s.nextRef).reports = []) (ha : s.Passes source a)
    (hcode : a.task.node? = some code) :
    let programs := (compile source s.nextRef).program :: ps
    let distances := (s.keep (compile source s.nextRef)).distances
    ∃ program ∈ programs, ∃ v, v.code = code ∧
      Agrees programs distances a.machine program v := by
  intro programs distances
  have hfits := hs.fits.keep hreports
  obtain ⟨Λ, htask⟩ := ha.fits hs.fits hreports
  obtain ⟨v, hat, rfl⟩ := htask.at_node hcode
  obtain ⟨program, hprogram, hv⟩ := hat.known
  refine ⟨program, hprogram, v, rfl, hv, fun program' v' hprogram' hv' hcode' hrefs => ?_,
    hat.frames.ancestor_eq_global_iff hat.heap, fun ref name d href hd => ?_⟩
  · obtain ⟨r, hr⟩ := List.exists_mem_of_ne_nil _ hrefs
    have hr' : r ∈ v'.code.refs := by rwa [hcode']
    obtain rfl : program' = program :=
      hfits.apart _ _ hprogram' hprogram r (refs_subset hv' hr') (refs_subset hv hr)
    exact Visits.unique (hfits.nodup _ hprogram) hv' hv hcode' (hcode'.symm ▸ hrefs)
  · obtain ⟨g, hg, hbound | ⟨hun, hassign⟩⟩ := hat.bound href hd
    · exact ⟨g, hg, .inl hbound⟩
    · refine ⟨g, hg, .inr ⟨hassign, ?_⟩⟩
      exact hv.own_initializer (hfits.resolved _ hprogram) hun

/-- An assignment is about to start, to a variable `d` frames further out, `links` links away from the
global frame. -/
def assignsLocal (distances : Distances) (d links : Nat) (a : Moment) : Bool :=
  match a.task with
  | .eval (.assign ref _ _) =>
    distances[ref]? == some d && a.machine.store.ancestor a.machine.current links == some Store.global
  | _ => false

/-- A variable of a block is assigned to in a block inside it, in the first chunk of a session. -/
theorem scopes_agree_block :
    let s := Session.start .nan none
    let source := "{let x=1;{x=2;}}"
    let c := compile source s.nextRef
    ∃ a ref name e, s.Passes source a ∧ a.task = .eval (.assign ref name e) ∧
      (s.keep c).distances[ref]? = some 1 ∧
      a.machine.store.ancestor a.machine.current 2 = some Store.global ∧
      ∃ program ∈ [c.program], ∃ v, v.code = .expr (.assign ref name e) ∧
        Agrees [c.program] (s.keep c).distances a.machine program v := by
  intro s source c
  have hreports : c.reports = [] := by decide +kernel
  obtain ⟨a, hpasses, ha⟩ :=
    s.passes_of_any source (assignsLocal (s.keep c).distances 1 2) 8 8 (by decide +kernel)
  unfold assignsLocal at ha
  split at ha
  case h_2 => cases ha
  rename_i ref name e htask
  simp only [Bool.and_eq_true, beq_iff_eq] at ha
  have hagrees := scopes_agree (.start .nan none) hreports hpasses (congrArg Task.node? htask)
  exact ⟨a, ref, name, e, hpasses, htask, ha.1, ha.2, hagrees⟩

/-! ## Faults -/

/-- The fault is the program's own: none of those that only a wrong distance, a misplaced keyword or
an operator without a meaning could cause. -/
structure OwnFault (programs : List (List Stmt)) (distances : Distances) (f : Fault) : Prop where
  superOutsideClass : f.cause ≠ .superOutsideClass
  unaryOperator : f.cause ≠ .invalidUnaryOperator
  binaryOperator : f.cause ≠ .invalidBinaryOperator
  this : f.cause ≠ .undefinedVariable "this"
  /-- An undefined variable is a reference that no distance is known for. -/
  undefined (x : String) : f.cause = .undefinedVariable x → x = f.site.lexeme ∧
    ∃ program ∈ programs, ∃ v ref, Visits program v ∧ Refers v.code ref f.site ∧
      distances[ref]? = none
  /-- What is no class or has no properties was not found by `super`. -/
  keyword : f.cause = .superclassNotClass ∨ f.cause = .noProperties → f.site.is .superKw = false

theorem ownFault_of_benign {W : World} {f : Fault} {programs : List (List Stmt)}
    (hW : ∀ program, W.programs program → program ∈ programs) (h : Benign W f) :
    OwnFault programs W.distances f := by
  obtain ⟨site, cause⟩ := f
  refine ⟨?_, ?_, ?_, ?_, fun x hx => ?_, fun hkeyword => ?_⟩
  · rintro rfl
    exact h
  · rintro rfl
    exact h
  · rintro rfl
    exact h
  · rintro rfl
    exact h.2.1 rfl
  · cases hx
    obtain ⟨hsite, -, v, ref, ⟨program, hprogram, hv⟩, href, hd⟩ := h
    exact ⟨hsite, program, hW program hprogram, v, ref, hv, href, hd⟩
  · have hident : site.is .identifier = true := by
      rcases hkeyword with rfl | rfl <;> exact h
    simp only [Token.is, decide_eq_true_eq] at hident
    simp [Token.is, hident]

/-- What the machine looks up when a computation starts is there, and of the right kind. -/
structure Served (distances : Distances) (a : Moment) : Prop where
  /-- A reference with a distance is read. -/
  reads (code : Code) (ref : RefId) (name : Token) (d : Nat) : a.task.node? = some code →
    Refers code ref name → (∀ e, code ≠ .expr (.assign ref name e)) → distances[ref]? = some d →
      ∃ v, readRef (.byDistance distances) ref name a.machine = .ok v a.machine
  /-- A reference with a distance is assigned to. -/
  writes (ref : RefId) (name : Token) (e : Expr) (value : Value) (d : Nat) :
    a.task = .write ref name e value → distances[ref]? = some d →
      ∃ m, writeRef (.byDistance distances) ref name value a.machine = .ok () m
  /-- `super` is a class, and its receiver an instance. -/
  supers (ref : RefId) (keyword method : Token) : a.task = .eval (.super ref keyword method) →
    ∃ parent receiver,
      readSuper (.byDistance distances) ref keyword a.machine = .ok (.cls parent) a.machine ∧
      readReceiver (.byDistance distances) ref keyword a.machine = .ok (.object receiver) a.machine
  /-- The name of a class can be assigned to once the class is made. -/
  closings (decl : ClassDecl) (made : FrameId × Class) (m : Machine) :
    a.task = .exec (.classDecl decl) →
      makeClass (.byDistance distances) decl a.machine = .ok made m →
      ∃ m', assignFrom made.1 decl.name (.cls made.2) m = .ok () m'

theorem served_of_fits {W : World} {Λ : Layout} {a : Moment} (h : TaskFits W Λ a.machine a.task) :
    Served W.distances a where
  reads code ref name d hcode href hne hd := by
    obtain ⟨v, hat, rfl⟩ := h.at_node hcode
    have hread : v.state.isUnreadable name.lexeme = false := by
      rcases href.readable hat.sound with hread | ⟨e, he⟩
      · exact hread
      · exact absurd he (hne e)
    have hdist := href.distance hat.sound
    rw [hd] at hdist
    obtain ⟨x, hx, -⟩ := hat.reads hdist.symm hread
    exact ⟨x, by simp only [readRef, hd, hx, Exec.ofOption]⟩
  writes ref name e value d htask hd := by
    rw [htask] at h
    obtain ⟨-, s, ns, hat⟩ := h
    obtain ⟨g, hg, -⟩ := hat.bound .assign hd
    simp only [writeRef, hd, hg, Exec.assignIn]
    exact ⟨_, rfl⟩
  supers ref keyword method htask := by
    rw [htask] at h
    obtain ⟨s, ns, hat⟩ := h
    obtain ⟨A, parent, -, -, hsuper, hreceiver, -⟩ := hat.super_reads rfl
    exact ⟨parent, A.receiver, hsuper, hreceiver⟩
  closings decl made m htask hmade := by
    rw [htask] at h
    obtain ⟨s, ns, hat⟩ := h
    exact hat.closing rfl hmade

/-- **A chunk without reports never causes an internal fault.** Whatever happened in the session
before: a run of the chunk reports nothing, or one fault that is the program's own; and at every
moment of it a reference with a distance is read and assigned to, a `super` finds a class and an
instance, and a class declaration can assign to its name. -/
theorem no_internal_fault (hs : History s ps)
    (hreports : (compile source s.nextRef).reports = []) :
    let programs := (compile source s.nextRef).program :: ps
    let distances := (s.keep (compile source s.nextRef)).distances
    (∀ steps outcome s', s.run steps source = some (outcome, s') →
      s'.diagnostics = s.diagnostics ∨ ∃ f, OwnFault programs distances f ∧
        s'.diagnostics = s.diagnostics.report f.diagnostic) ∧
    ∀ a, s.Passes source a → Served distances a := by
  intro programs distances
  have hfits := hs.fits.keep hreports
  constructor
  · intro steps outcome s' hrun
    obtain ⟨Λ, hheap⟩ := hfits.heap
    have hends := ends_interpret (W := hfits.world) steps List.mem_cons_self hheap hfits.current
    change Ends _ _ _ (interpret (s.keep (compile source s.nextRef)).scoping _ _ _) _ at hends
    rw [run_eq_execute steps hreports, execute] at hrun
    split at hrun
    · cases hrun
      exact .inl rfl
    · next f m hfault =>
      rw [hfault] at hends
      cases hrun
      exact .inr ⟨f, ownFault_of_benign (fun _ hp => hp) hends.2, rfl⟩
    · cases hrun
  · intro a ha
    obtain ⟨Λ, htask⟩ := ha.fits hs.fits hreports
    exact served_of_fits htask

/-- A method of the superclass is about to be looked for. -/
def looksForSuper (a : Moment) : Bool :=
  match a.task with
  | .eval (.super _ _ _) => true
  | _ => false

theorem passes_super (s : Session) (source : String) (steps depth : Nat)
    (h : (s.moments source steps depth).any looksForSuper = true) :
    ∃ a ref keyword name, s.Passes source a ∧ a.task = .eval (.super ref keyword name) := by
  obtain ⟨a, hpasses, ha⟩ := s.passes_of_any source looksForSuper steps depth h
  unfold looksForSuper at ha
  split at ha
  · next ref keyword name htask => exact ⟨a, ref, keyword, name, hpasses, htask⟩
  · cases ha

/-- A constructor that looks for a method of the superclass, and then assigns to a name that is bound
nowhere, in the first chunk of a session. -/
theorem no_internal_fault_global :
    let source := "class A{m(){}}class B extends A{constructor(){super.m;x=1;}}B();"
    let s := Session.start .nan none
    let c := compile source s.nextRef
    let distances := (s.keep c).distances
    (∃ s', s.run 12 source = some (.runtimeError, s') ∧
      ∃ f, OwnFault [c.program] distances f ∧
        s'.diagnostics = s.diagnostics.report f.diagnostic) ∧
    ∃ a ref keyword name, s.Passes source a ∧ a.task = .eval (.super ref keyword name) ∧
      Served distances a ∧ ∃ parent receiver,
        readSuper (.byDistance distances) ref keyword a.machine = .ok (.cls parent) a.machine ∧
        readReceiver (.byDistance distances) ref keyword a.machine =
          .ok (.object receiver) a.machine := by
  intro source s c distances
  have hreports : c.reports = [] := by decide +kernel
  obtain ⟨hfaults, hserved⟩ := no_internal_fault (.start .nan none) hreports
  constructor
  · have hrun : (s.run 12 source).map (fun p => (p.1, p.2.diagnostics.count)) =
        some (.runtimeError, 1) := by
      decide +kernel
    obtain ⟨⟨outcome, s'⟩, hrun, hends⟩ := Option.map_eq_some_iff.mp hrun
    obtain ⟨rfl, hcount⟩ := Prod.mk.inj hends
    rcases hfaults 12 _ s' hrun with hsame | ⟨f, hf, hreport⟩
    · rw [hsame] at hcount
      cases hcount
    · exact ⟨s', hrun, f, hf, hreport⟩
  · obtain ⟨a, ref, keyword, name, hpasses, htask⟩ :=
      s.passes_super source 12 12 (by decide +kernel)
    have hsuper := (hserved a hpasses).supers ref keyword name htask
    exact ⟨a, ref, keyword, name, hpasses, htask, hserved a hpasses, hsuper⟩

end Session

end Scriptlet
