import Scriptlet.Proofs.Run.Plan
import Scriptlet.Proofs.Scope.Reading

/-!
# Running a program with its `for` loops read

A run that reads turns does what other runs do, with one exception: the turn of a `for` is no block. It
makes no frame, so the body and the step are run in the frame of the loop. This is what `for` means:
the initializer is run once, in a frame of its own; as long as the condition holds, the body is run and
then, unless it returned or failed, the step is evaluated, all in that frame.

That meaning is written down as what is made of the clauses of a `for`, given how each of them is run:
`forInit` with the initializer, `forTurn` with the others.

Results:
* `Task.read`, `readInterpret`: runs that read turns.
* `read_forInit`, `read_forTurn`, `read_forTurn_stepless`: **such a run does what `for` says**, with or
  without its clauses.
-/

namespace Scriptlet.Run

open Exec

variable (R : Reading) (σ : Scoping)

/-- What a computation does when turns are read: a turn is run in the current frame. -/
def Task.readPlan : (t : Task) → Plan t.Answer
  | .exec (.block body) =>
    if R.direct body then .use (.execAll body) .done else (Task.exec (.block body)).plan σ
  | t => t.plan σ

/-- Runs a computation on the steps it is granted, with turns read. -/
def Task.read : Nat → (t : Task) → Exec t.Answer
  | _, .write ref name _ value => writeRef σ ref name value
  | 0, _ => exhausted
  | n + 1, t => (t.readPlan R σ).run (Task.read n)

/-- Runs a program with turns read. -/
def readProgram (steps : Nat) : List Stmt → Exec Unit
  | [] => pure ()
  | stmt :: stmts => do
    let _ ← Task.read R σ steps (.exec stmt)
    readProgram steps stmts

/-- Runs a program with turns read. After a fault the current frame is the global one. -/
def readInterpret (steps : Nat) (program : List Stmt) : Exec Unit := fun m =>
  match readProgram R σ steps program m with
  | .fault fault m => .fault fault { m with current := Store.global }
  | result => result

variable {R σ} {n : Nat}

/-- Changing a reference takes no step. -/
theorem read_write (ref : RefId) (name : Token) (e : Expr) (value : Value) :
    Task.read R σ n (.write ref name e value) = writeRef σ ref name value := by
  cases n <;> rfl

/-- A turn is run in the current frame. -/
theorem read_direct {body : List Stmt} (h : R.direct body = true) :
    Task.read R σ (n + 1) (.exec (.block body)) = Task.read R σ n (.execAll body) := by
  have hplan : (Task.exec (.block body)).readPlan R σ = .use (.execAll body) .done := if_pos h
  show ((Task.exec (.block body)).readPlan R σ).run _ = _
  rw [hplan]
  exact bind_pure _

/-- Any other block is run in a frame of its own. -/
theorem read_block {body : List Stmt} (h : R.direct body = false) :
    Task.read R σ (n + 1) (.exec (.block body)) =
      (do inFrame (← newFrame [] (← currentFrame)) (Task.read R σ n (.execAll body))) := by
  have hplan : (Task.exec (.block body)).readPlan R σ = (Task.exec (.block body)).plan σ :=
    if_neg (by simp [h])
  show ((Task.exec (.block body)).readPlan R σ).run _ = _
  rw [hplan]
  refine congrArg (currentFrame >>= ·) (funext fun outer => ?_)
  exact congrArg (newFrame [] outer >>= ·) (funext fun frame => bind_pure _)

/-! ## What `for` does -/

/-- A statement and then the rest, unless the statement returned. -/
def andThen (first rest : Exec Flow) : Exec Flow := do
  match ← first with
  | .normal => rest
  | .returned value => return .returned value

/-- **What an initializer does**: it is run once, in a fresh frame, and then the loop in that frame. -/
def forInit (init loop : Exec Flow) : Exec Flow := do
  inFrame (← newFrame [] (← currentFrame)) (andThen init loop)

/-- **What a loop does**: if the condition holds, the body and then, unless it returned, the step; and the
same again. -/
def forTurn {α : Type} (cond : Exec Value) (body : Exec Flow) (step : Exec α) (again : Exec Flow) :
    Exec Flow := do
  if (← cond).truthy then
    andThen body do
      let _ ← step
      again
  else return .normal

theorem andThen_pure (x : Exec Flow) : andThen x (pure .normal) = x := by
  have hpure : (fun flow : Flow => match flow with
      | .normal => (pure .normal : Exec Flow)
      | .returned value => pure (.returned value)) = pure := by
    funext flow
    cases flow <;> rfl
  exact (congrArg (x >>= ·) hpure).trans (bind_pure x)

theorem andThen_assoc (x y z : Exec Flow) : andThen (andThen x y) z = andThen x (andThen y z) := by
  refine (bind_assoc _ _ _).trans (congrArg (x >>= ·) (funext fun flow => ?_))
  cases flow <;> rfl

/-- What follows an expression is not told its value. -/
theorem andThen_normal {α : Type} (x : Exec α) (y : Exec Flow) :
    andThen (do let _ ← x; return .normal) y = (do let _ ← x; y) :=
  bind_assoc _ _ _

/-- Two statements, one after the other. -/
theorem read_pair (first second : Stmt) :
    Task.read R σ (n + 3) (.execAll [first, second]) =
      andThen (Task.read R σ (n + 2) (.exec first)) (Task.read R σ (n + 1) (.exec second)) := by
  refine congrArg (Task.read R σ (n + 2) (.exec first) >>= ·) (funext fun flow => ?_)
  cases flow with
  | normal =>
    refine Eq.trans (bind_pure _) (Eq.trans ?_ (andThen_pure _))
    refine congrArg (Task.read R σ (n + 1) (.exec second) >>= ·) (funext fun flow => ?_)
    cases flow <;> rfl
  | returned value => rfl

/-- **A turn is the body and then, unless it returned, the step**, in the frame of the loop. -/
theorem read_turn {body : Stmt} {step : Expr} (h : R.direct [body, .expr step] = true) :
    Task.read R σ (n + 4) (.exec (.block [body, .expr step])) =
      andThen (Task.read R σ (n + 2) (.exec body)) do
        let _ ← Task.read R σ n (.eval step)
        return .normal := by
  rw [read_direct h]
  exact read_pair body (.expr step)

/-- A loop that is a statement. -/
theorem read_exec_loop (cond : Expr) (body : Stmt) :
    Task.read R σ (n + 1) (.exec (.loop cond body)) = Task.read R σ n (.loop cond body) :=
  bind_pure _

/-- A loop runs its body while the condition holds. -/
theorem read_loop (cond : Expr) (body : Stmt) :
    Task.read R σ (n + 1) (.loop cond body) = (do
      if (← Task.read R σ n (.eval cond)).truthy then
        andThen (Task.read R σ n (.exec body)) (Task.read R σ n (.loop cond body))
      else return .normal) := by
  refine congrArg (Task.read R σ n (.eval cond) >>= ·) (funext fun x => ?_)
  dsimp only
  split_ifs
  · refine congrArg (Task.read R σ n (.exec body) >>= ·) (funext fun flow => ?_)
    cases flow with
    | normal => exact bind_pure (Task.read R σ n (.loop cond body))
    | returned value => rfl
  · rfl

/-- **The loop of a `for`**: as long as the condition holds, the body and then the step. A `return` in
the body ends it at once. -/
theorem read_forTurn (cond : Option Expr) {body : Stmt} {step : Expr}
    (h : R.direct [body, .expr step] = true) :
    Task.read R σ (n + 6) (.exec (Parser.forLoop none cond (some step) body)) =
      forTurn (Task.read R σ (n + 4) (.eval (cond.getD (.literal (.bool true)))))
        (Task.read R σ (n + 2) (.exec body)) (Task.read R σ n (.eval step))
        (Task.read R σ (n + 5) (.exec (Parser.forLoop none cond (some step) body))) := by
  unfold Parser.forLoop forTurn
  dsimp only
  rw [read_exec_loop, read_exec_loop, read_loop, read_turn h, andThen_assoc, andThen_normal]

/-- Without a step the body is the turn. -/
theorem read_forTurn_stepless (cond : Option Expr) (body : Stmt) :
    Task.read R σ (n + 2) (.exec (Parser.forLoop none cond none body)) =
      forTurn (Task.read R σ n (.eval (cond.getD (.literal (.bool true)))))
        (Task.read R σ n (.exec body)) (pure ())
        (Task.read R σ (n + 1) (.exec (Parser.forLoop none cond none body))) := by
  unfold Parser.forLoop forTurn
  dsimp only
  rw [read_exec_loop, read_exec_loop, read_loop]
  rfl

/-- **A `for` with an initializer** runs it once, in a fresh frame, and the rest in that frame. -/
theorem read_forInit (init : Stmt) (cond step : Option Expr) (body : Stmt) :
    Task.read R σ (n + 4) (.exec (Parser.forLoop (some init) cond step body)) =
      forInit (Task.read R σ (n + 2) (.exec init))
        (Task.read R σ (n + 1) (.exec (Parser.forLoop none cond step body))) := by
  refine (read_block (R.not_direct_loop init _ _)).trans ?_
  rw [read_pair]
  rfl

end Scriptlet.Run
