import Scriptlet.Proofs.Run.Preservation

/-!
# The moments of a run

A run is a tree of computations, each of which starts others: `Starts` has one rule for every
computation that another one uses, with the machine on which it starts. What is reached from the run
of a program is a moment of that run, whether or not the run ever ends.

Results:
* `Starts.fits`: **the invariant is handed on to every computation that is started.**
* `Reaches.fits`: so it holds at every moment of a run.
* `ends_interpret`: a program preserves the invariant, and ends in the global frame.
-/

namespace Scriptlet.Run

open Scope Exec

/-- A computation. -/
inductive Task where
  | program (ss : List Stmt)
  | exec (st : Stmt)
  | execAll (ss : List Stmt)
  | loop (cond : Expr) (body : Stmt)
  | eval (e : Expr)
  | evalAll (es : List Expr)
  | apply (callee : Value) (args : List Value) (site : Token)
  | call (fn : Function) (args : List Value)
  /-- The end of an assignment, when the value is there. -/
  | write (ref : RefId) (name : Token) (e : Expr) (value : Value)

/-- A computation about to start, with the steps it is granted. -/
structure Moment where
  steps : Nat
  task : Task
  machine : Machine

/-- **A computation uses another one.** -/
inductive Starts (σ : Scoping) : Moment → Moment → Prop
  | firstOfProgram {n st ss m} : Starts σ ⟨n, .program (st :: ss), m⟩ ⟨n, .exec st, m⟩
  | restOfProgram {n st ss m flow m'} (h : exec σ n st m = .ok flow m') :
    Starts σ ⟨n, .program (st :: ss), m⟩ ⟨n, .program ss, m'⟩
  | evaluated {n e m} : Starts σ ⟨n + 1, .exec (.expr e), m⟩ ⟨n, .eval e, m⟩
  | init {n name e m} : Starts σ ⟨n + 1, .exec (.declare name (some e)), m⟩ ⟨n, .eval e, m⟩
  | block {n body m frame m'} (h : newFrame [] m.current m = .ok frame m') :
    Starts σ ⟨n + 1, .exec (.block body), m⟩ ⟨n, .execAll body, { m' with current := frame }⟩
  | condition {n c t o m} : Starts σ ⟨n + 1, .exec (.branch c t o), m⟩ ⟨n, .eval c, m⟩
  | thenDo {n c t o m x m'} (h : eval σ n c m = .ok x m') (hx : x.truthy = true) :
    Starts σ ⟨n + 1, .exec (.branch c t o), m⟩ ⟨n, .exec t, m'⟩
  | elseDo {n c t e m x m'} (h : eval σ n c m = .ok x m') (hx : x.truthy = false) :
    Starts σ ⟨n + 1, .exec (.branch c t (some e)), m⟩ ⟨n, .exec e, m'⟩
  | looping {n c b m} : Starts σ ⟨n + 1, .exec (.loop c b), m⟩ ⟨n, .loop c b, m⟩
  | returned {n k e m} : Starts σ ⟨n + 1, .exec (.ret k (some e)), m⟩ ⟨n, .eval e, m⟩
  | firstStmt {n st ss m} : Starts σ ⟨n + 1, .execAll (st :: ss), m⟩ ⟨n, .exec st, m⟩
  | otherStmts {n st ss m m'} (h : exec σ n st m = .ok .normal m') :
    Starts σ ⟨n + 1, .execAll (st :: ss), m⟩ ⟨n, .execAll ss, m'⟩
  | loopCondition {n c b m} : Starts σ ⟨n + 1, .loop c b, m⟩ ⟨n, .eval c, m⟩
  | loopBody {n c b m x m'} (h : eval σ n c m = .ok x m') (hx : x.truthy = true) :
    Starts σ ⟨n + 1, .loop c b, m⟩ ⟨n, .exec b, m'⟩
  | loopAgain {n c b m x m' m''} (h : eval σ n c m = .ok x m') (hx : x.truthy = true)
      (h' : exec σ n b m' = .ok .normal m'') :
    Starts σ ⟨n + 1, .loop c b, m⟩ ⟨n, .loop c b, m''⟩
  | group {n e m} : Starts σ ⟨n + 1, .eval (.group e), m⟩ ⟨n, .eval e, m⟩
  | operand {n op e m} : Starts σ ⟨n + 1, .eval (.unary op e), m⟩ ⟨n, .eval e, m⟩
  | left {n l op r m} : Starts σ ⟨n + 1, .eval (.binary l op r), m⟩ ⟨n, .eval l, m⟩
  | right {n l op r m x m'} (h : eval σ n l m = .ok x m') :
    Starts σ ⟨n + 1, .eval (.binary l op r), m⟩ ⟨n, .eval r, m'⟩
  | leftLogical {n l op r m} : Starts σ ⟨n + 1, .eval (.logical l op r), m⟩ ⟨n, .eval l, m⟩
  | rightLogical {n l op r m x m'} (h : eval σ n l m = .ok x m')
      (hx : (x.truthy == op.is .pipePipe) = false) :
    Starts σ ⟨n + 1, .eval (.logical l op r), m⟩ ⟨n, .eval r, m'⟩
  | assigned {n ref name e m} : Starts σ ⟨n + 1, .eval (.assign ref name e), m⟩ ⟨n, .eval e, m⟩
  | write {n ref name e m v m'} (h : eval σ n e m = .ok v m') :
    Starts σ ⟨n + 1, .eval (.assign ref name e), m⟩ ⟨n, .write ref name e v, m'⟩
  | callee {n e paren args m} : Starts σ ⟨n + 1, .eval (.call e paren args), m⟩ ⟨n, .eval e, m⟩
  | arguments {n e paren args m f m'} (h : eval σ n e m = .ok f m') :
    Starts σ ⟨n + 1, .eval (.call e paren args), m⟩ ⟨n, .evalAll args, m'⟩
  | applied {n e paren args m f m' vs m''} (h : eval σ n e m = .ok f m')
      (h' : evalAll σ n args m' = .ok vs m'') (harity : f.arity? = some vs.length) :
    Starts σ ⟨n + 1, .eval (.call e paren args), m⟩ ⟨n, .apply f vs paren, m''⟩
  | object {n e name m} : Starts σ ⟨n + 1, .eval (.get e name), m⟩ ⟨n, .eval e, m⟩
  | setObject {n o name e m} : Starts σ ⟨n + 1, .eval (.set o name e), m⟩ ⟨n, .eval o, m⟩
  | setValue {n o name e m i m'} (h : eval σ n o m = .ok (.object i) m') :
    Starts σ ⟨n + 1, .eval (.set o name e), m⟩ ⟨n, .eval e, m'⟩
  | firstExpr {n e es m} : Starts σ ⟨n + 1, .evalAll (e :: es), m⟩ ⟨n, .eval e, m⟩
  | otherExprs {n e es m v m'} (h : eval σ n e m = .ok v m') :
    Starts σ ⟨n + 1, .evalAll (e :: es), m⟩ ⟨n, .evalAll es, m'⟩
  | called {n f args site m} :
    Starts σ ⟨n + 1, .apply (.function f) args site, m⟩ ⟨n, .call f args, m⟩
  | constructed {n c args site m i m' method bound m''} (h : newInstance c m = .ok i m')
      (hmethod : c.findMethod constructorName = some method)
      (h' : bindMethod method i m' = .ok bound m'') :
    Starts σ ⟨n + 1, .apply (.cls c) args site, m⟩ ⟨n, .call bound args, m''⟩
  | body {n f args m frame m'}
      (h : newFrame (.ofArguments f.decl.params args) f.frame m = .ok frame m') :
    Starts σ ⟨n + 1, .call f args, m⟩ ⟨n, .execAll f.decl.body, { m' with current := frame }⟩

/-- A moment of the run that starts with another one. -/
def Reaches (σ : Scoping) : Moment → Moment → Prop := Relation.ReflTransGen (Starts σ)

variable {W : World} {Λ Λ' : Layout} {m m' : Machine}

/-- **A computation may start on a machine.** -/
def TaskFits (W : World) (Λ : Layout) (m : Machine) : Task → Prop
  | .program ss | .execAll ss => ∃ s ns, At W Λ m ⟨.stmts ss, s, ns⟩
  | .exec st => ∃ s ns, At W Λ m ⟨.stmt st, s, ns⟩
  | .loop c b => ∃ s ns, At W Λ m ⟨.stmt (.loop c b), s, ns⟩
  | .eval e => ∃ s ns, At W Λ m ⟨.expr e, s, ns⟩
  | .evalAll es => ∃ s ns, At W Λ m ⟨.exprs es, s, ns⟩
  | .apply callee args _ => HeapFits W.programs Λ m.store ∧
    ValueFits W.programs Λ m.store callee ∧ (∀ v ∈ args, ValueFits W.programs Λ m.store v) ∧
      callee.arity? = some args.length
  | .call fn args => HeapFits W.programs Λ m.store ∧ FunctionFits W.programs Λ m.store fn ∧
    (∀ v ∈ args, ValueFits W.programs Λ m.store v) ∧ args.length = fn.arity
  | .write ref name e value => ValueFits W.programs Λ m.store value ∧
    ∃ s ns, At W Λ m ⟨.expr (.assign ref name e), s, ns⟩

/-- Whatever starts, the invariant of the store holds. -/
theorem TaskFits.heap {t : Task} (h : TaskFits W Λ m t) : HeapFits W.programs Λ m.store := by
  cases t with
  | apply | call => exact h.1
  | write =>
    obtain ⟨-, s, ns, hat⟩ := h
    exact hat.heap
  | _ =>
    obtain ⟨s, ns, hat⟩ := h
    exact hat.heap

/-- **The invariant is handed on to every computation that is started.** -/
theorem Starts.fits {a b : Moment} (h : Starts W.scoping a b)
    (ha : ∃ Λ, TaskFits W Λ a.machine a.task) : ∃ Λ, TaskFits W Λ b.machine b.task := by
  obtain ⟨Λ, ha⟩ := ha
  cases h with
  | firstOfProgram =>
    obtain ⟨s, ns, hat⟩ := ha
    exact ⟨Λ, s, ns, hat.within .firstStmt rfl rfl⟩
  | @restOfProgram n st ss m flow m' h =>
    obtain ⟨s, ns, hat⟩ := ha
    obtain ⟨Λ₁, h₁, hflow⟩ := ((preserves W n).exec (hat.within .firstStmt rfl rfl)).ok h
    exact ⟨Λ₁, _, _, (hat.after h₁).otherStmts (h₁.current ▸ hflow.2)⟩
  | evaluated =>
    obtain ⟨s, ns, hat⟩ := ha
    exact ⟨Λ, _, _, hat.within .evaluated rfl rfl⟩
  | init =>
    obtain ⟨s, ns, hat⟩ := ha
    exact ⟨Λ, _, _, hat.known.step .init, hat.heap, hat.frames.declare,
      hat.home.stay .init hat.sound.proper rfl⟩
  | block h =>
    obtain ⟨s, ns, hat⟩ := ha
    cases h
    obtain ⟨Λ₁, -, hat₁⟩ := hat.block
    exact ⟨Λ₁, _, _, hat₁⟩
  | condition =>
    obtain ⟨s, ns, hat⟩ := ha
    exact ⟨Λ, _, _, hat.within .condition rfl rfl⟩
  | @thenDo n c t o m x m' h hx =>
    obtain ⟨s, ns, hat⟩ := ha
    obtain ⟨Λ₁, h₁, -⟩ := ((preserves W n).eval (hat.within .condition rfl rfl)).ok h
    exact ⟨Λ₁, _, _, (hat.after h₁).within .thenDo (scopes_walkExpr c s) rfl⟩
  | @elseDo n c t e m x m' h hx =>
    obtain ⟨s, ns, hat⟩ := ha
    obtain ⟨Λ₁, h₁, -⟩ := ((preserves W n).eval (hat.within .condition rfl rfl)).ok h
    exact ⟨Λ₁, _, _, (hat.after h₁).elseDo⟩
  | looping => exact ⟨Λ, ha⟩
  | @returned n k e m =>
    obtain ⟨s, ns, hat⟩ := ha
    exact ⟨Λ, _, _, hat.within .returned (scopes_checkReturn s k true) rfl⟩
  | firstStmt =>
    obtain ⟨s, ns, hat⟩ := ha
    exact ⟨Λ, _, _, hat.within .firstStmt rfl rfl⟩
  | @otherStmts n st ss m m' h =>
    obtain ⟨s, ns, hat⟩ := ha
    obtain ⟨Λ₁, h₁, hflow⟩ := ((preserves W n).exec (hat.within .firstStmt rfl rfl)).ok h
    exact ⟨Λ₁, _, _, (hat.after h₁).otherStmts (h₁.current ▸ hflow.2)⟩
  | loopCondition =>
    obtain ⟨s, ns, hat⟩ := ha
    exact ⟨Λ, _, _, hat.within .loopCondition rfl rfl⟩
  | @loopBody n c b m x m' h hx =>
    obtain ⟨s, ns, hat⟩ := ha
    obtain ⟨Λ₁, h₁, -⟩ := ((preserves W n).eval (hat.within .loopCondition rfl rfl)).ok h
    exact ⟨Λ₁, _, _, (hat.after h₁).within .loopBody (scopes_walkExpr c s) rfl⟩
  | @loopAgain n c b m x m' m'' h hx h' =>
    obtain ⟨s, ns, hat⟩ := ha
    obtain ⟨Λ₁, h₁, -⟩ := ((preserves W n).eval (hat.within .loopCondition rfl rfl)).ok h
    have hat₁ := (hat.after h₁).within .loopBody (scopes_walkExpr c s) rfl
    obtain ⟨Λ₂, h₂, -⟩ := ((preserves W n).exec hat₁).ok h'
    exact ⟨Λ₂, _, _, (hat.after h₁).after h₂⟩
  | group =>
    obtain ⟨s, ns, hat⟩ := ha
    exact ⟨Λ, _, _, hat.within .group rfl rfl⟩
  | operand =>
    obtain ⟨s, ns, hat⟩ := ha
    exact ⟨Λ, _, _, hat.within .operand rfl rfl⟩
  | left =>
    obtain ⟨s, ns, hat⟩ := ha
    exact ⟨Λ, _, _, hat.within .left rfl rfl⟩
  | @right n l op r m x m' h =>
    obtain ⟨s, ns, hat⟩ := ha
    obtain ⟨Λ₁, h₁, -⟩ := ((preserves W n).eval (hat.within .left rfl rfl)).ok h
    exact ⟨Λ₁, _, _, (hat.after h₁).within .right (scopes_walkExpr l s) rfl⟩
  | leftLogical =>
    obtain ⟨s, ns, hat⟩ := ha
    exact ⟨Λ, _, _, hat.within .leftLogical rfl rfl⟩
  | @rightLogical n l op r m x m' h hx =>
    obtain ⟨s, ns, hat⟩ := ha
    obtain ⟨Λ₁, h₁, -⟩ := ((preserves W n).eval (hat.within .leftLogical rfl rfl)).ok h
    exact ⟨Λ₁, _, _, (hat.after h₁).within .rightLogical (scopes_walkExpr l s) rfl⟩
  | assigned =>
    obtain ⟨s, ns, hat⟩ := ha
    exact ⟨Λ, _, _, hat.within .assigned rfl rfl⟩
  | @write n ref name e m v m' h =>
    obtain ⟨s, ns, hat⟩ := ha
    obtain ⟨Λ₁, h₁, hv⟩ := ((preserves W n).eval (hat.within .assigned rfl rfl)).ok h
    exact ⟨Λ₁, hv, _, _, hat.after h₁⟩
  | callee =>
    obtain ⟨s, ns, hat⟩ := ha
    exact ⟨Λ, _, _, hat.within .callee rfl rfl⟩
  | @arguments n e paren args m f m' h =>
    obtain ⟨s, ns, hat⟩ := ha
    obtain ⟨Λ₁, h₁, -⟩ := ((preserves W n).eval (hat.within .callee rfl rfl)).ok h
    exact ⟨Λ₁, _, _, (hat.after h₁).within .arguments (scopes_walkExpr e s) rfl⟩
  | @applied n e paren args m f m' vs m'' h h' harity =>
    obtain ⟨s, ns, hat⟩ := ha
    obtain ⟨Λ₁, h₁, hf⟩ := ((preserves W n).eval (hat.within .callee rfl rfl)).ok h
    have hat₁ := (hat.after h₁).within .arguments (scopes_walkExpr e s) rfl
    obtain ⟨Λ₂, h₂, hvs⟩ := ((preserves W n).evalAll hat₁).ok h'
    exact ⟨Λ₂, h₂.heap, h₂.fits hf, hvs, harity⟩
  | object =>
    obtain ⟨s, ns, hat⟩ := ha
    exact ⟨Λ, _, _, hat.within .object rfl rfl⟩
  | @setObject n o name e m =>
    obtain ⟨s, ns, hat⟩ := ha
    exact ⟨Λ, _, _, hat.within .setObject (scopes_walkExpr e s) rfl⟩
  | @setValue n o name e m i m' h =>
    obtain ⟨s, ns, hat⟩ := ha
    have hat' := hat.within .setObject (scopes_walkExpr e s) rfl
    obtain ⟨Λ₁, h₁, -⟩ := ((preserves W n).eval hat').ok h
    exact ⟨Λ₁, _, _, (hat.after h₁).within .setValue rfl rfl⟩
  | firstExpr =>
    obtain ⟨s, ns, hat⟩ := ha
    exact ⟨Λ, _, _, hat.within .firstExpr rfl rfl⟩
  | @otherExprs n e es m v m' h =>
    obtain ⟨s, ns, hat⟩ := ha
    obtain ⟨Λ₁, h₁, -⟩ := ((preserves W n).eval (hat.within .firstExpr rfl rfl)).ok h
    exact ⟨Λ₁, _, _, (hat.after h₁).within .otherExprs (scopes_walkExpr e s) rfl⟩
  | called =>
    obtain ⟨hheap, hcallee, hargs, harity⟩ := ha
    exact ⟨Λ, hheap, hcallee, hargs, (Option.some.inj harity).symm⟩
  | @constructed n c args site m i m' method bound m'' h hmethod h' =>
    obtain ⟨hheap, hcallee, hargs, harity⟩ := ha
    obtain ⟨Λ₁, h₁, hi⟩ := (ends_newInstance hheap hcallee).ok h
    have hfits : ClassFits W.programs Λ₁ m'.store c := h₁.fits (v := .cls c) hcallee
    obtain ⟨Λ₂, h₂, hbound⟩ :=
      (ends_construct h₁.heap hfits hmethod (Option.some.inj harity) hi).ok h'
    exact ⟨Λ₂, h₂.heap, hbound.1, fun v hv => h₂.fits (h₁.fits (hargs v hv)), hbound.2⟩
  | @body n f args m frame m' h =>
    obtain ⟨hheap, hfn, hargs, harity⟩ := ha
    cases h
    obtain ⟨Λ₁, s, ns, -, hat⟩ := at_body hheap hfn hargs harity
    exact ⟨Λ₁, s, ns, hat⟩

/-- **The invariant holds at every moment of a run.** -/
theorem Reaches.fits {a b : Moment} (h : Reaches W.scoping a b)
    (ha : ∃ Λ, TaskFits W Λ a.machine a.task) : ∃ Λ, TaskFits W Λ b.machine b.task := by
  induction h with
  | refl => exact ha
  | tail _ hstep ih => exact hstep.fits ih

/-! ## Programs -/

/-- A program starts in the global frame, where no scope is open. -/
theorem at_program {program : List Stmt} (hprogram : W.programs program)
    (h : HeapFits W.programs Λ m.store) (hcurrent : m.current = Store.global) :
    At W Λ m ⟨.stmts program, {}, []⟩ := by
  refine ⟨⟨program, hprogram, .refl⟩, h, ?_, fun hthis => absurd rfl hthis⟩
  rw [hcurrent]
  exact .global

theorem ends_execProgram {ss : List Stmt} {s : State} {ns : List (List String)} (n : Nat)
    (h : At W Λ m ⟨.stmts ss, s, ns⟩) :
    Ends W Λ m (execProgram W.scoping n ss m) (fun _ _ _ => True) := by
  induction ss generalizing Λ m s with
  | nil => exact .pure h.heap trivial
  | cons st ss ih =>
    refine ((preserves W n).exec (h.within .firstStmt rfl rfl)).bind fun _ Λ₁ m₁ _ h₁ hflow => ?_
    exact ih ((h.after h₁).otherStmts (h₁.current ▸ hflow.2))

/-- **A program preserves the invariant**, and ends in the global frame. -/
theorem ends_interpret {program : List Stmt} (n : Nat) (hprogram : W.programs program)
    (h : HeapFits W.programs Λ m.store) (hcurrent : m.current = Store.global) :
    Ends W Λ m (interpret W.scoping n program m) (fun _ _ _ => True) := by
  have hends := ends_execProgram n (at_program hprogram h hcurrent)
  unfold interpret
  cases hr : execProgram W.scoping n program m with
  | fault f m' =>
    rw [hr] at hends
    obtain ⟨⟨Λ', hfollows⟩, hbenign⟩ := hends
    exact ⟨⟨Λ', hfollows.heap, hfollows.layout, hfollows.later, hcurrent.symm, hfollows.output,
      hfollows.clock⟩, hbenign⟩
  | ok a m' =>
    rw [hr] at hends
    exact hends
  | exhausted => trivial

end Scriptlet.Run
