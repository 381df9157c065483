import Scriptlet.Proofs.Run.Growth

/-!
# The current frame

Blocks and calls run in frames of their own, and the methods of a class are made in one. Whatever comes
in between, a value, a `return` or a fault from any depth, a computation that ends is back in the frame
it started in (`Restores`). Nothing is asked of the program, the distances or the machine: a run that
may get hold of anything (`Origin.all`) is a run of `Confinement`, which never leaves its frame behind.

Results:
* `Moment.restores`: every kind of computation is back in its frame.
* `interpret_eq`: after a fault a program is in the global frame already, if it was there before.
* `current_frame_restored`: **the current frame is always restored.**
-/

namespace Scriptlet

namespace Run

open Exec

variable {σ : Scoping} {m m' : Machine} {n : Nat}

/-- **When the computation ends, the current frame is the one it started in.** -/
def Restores {α : Type} (x : Exec α) : Prop :=
  ∀ ⦃m m' : Machine⦄, (x m).machine? = some m' → m'.current = m.current

theorem Moment.restores (a : Moment) (hend : a.end? σ = some m') :
    m'.current = a.machine.current := ((ready_all a).ends hend).current

/-- The frame is left whatever the computation in it does. -/
theorem restores_inFrame {α : Type} (frame : FrameId) (x : Exec α) : Restores (inFrame frame x) := by
  intro m m' hend
  unfold inFrame at hend
  cases hx : x { m with current := frame } with
  | ok v m₁ | fault f m₁ =>
    simp only [hx] at hend
    cases hend
    rfl
  | exhausted =>
    simp only [hx] at hend
    cases hend

theorem restores_callNative (f : Native) (args : List Value) (site : Token) :
    Restores (callNative f args site) :=
  fun m _ hend => (((inside_all m).confined_callNative f args site).proceeds hend).current

/-- **The way back to the global frame changes nothing** for a program that starts in that frame. -/
theorem interpret_eq (program : List Stmt) (hm : m.current = Store.global) :
    interpret σ n program m = execProgram σ n program m := by
  unfold interpret
  cases hr : execProgram σ n program m with
  | ok v m₁ => rfl
  | exhausted => rfl
  | fault f m₁ =>
    have hback : m₁.current = Store.global :=
      (Moment.restores (σ := σ) ⟨n, .program program, m⟩ (by simp [Moment.end?, hr, Result.machine?])
        ).trans hm
    simp only [← hback]

/-- **The current frame is always restored**: by statements, expressions, blocks and calls of functions,
built-in functions and classes, whether they end with a value, with `return` or with a fault. So the
frame of a program that starts in the global frame is never changed by the way back to it. -/
theorem current_frame_restored (σ : Scoping) (n : Nat) :
    (∀ st, Restores (exec σ n st)) ∧
    (∀ e, Restores (eval σ n e)) ∧
    (∀ frame body, Restores (inFrame frame (execAll σ n body))) ∧
    (∀ fn args, Restores (call σ n fn args)) ∧
    (∀ f args site, Restores (callNative f args site)) ∧
    (∀ callee args site, Restores (apply σ n callee args site)) ∧
    ∀ program m, m.current = Store.global →
      interpret σ n program m = execProgram σ n program m := by
  refine ⟨fun st m m' hend => ?_, fun e m m' hend => ?_, fun frame body => restores_inFrame _ _,
    fun fn args m m' hend => ?_, restores_callNative, fun callee args site m m' hend => ?_,
    fun program m hm => interpret_eq program hm⟩
  · exact Moment.restores ⟨n, .exec st, m⟩ hend
  · exact Moment.restores ⟨n, .eval e, m⟩ hend
  · exact Moment.restores ⟨n, .call fn args, m⟩ hend
  · exact Moment.restores ⟨n, .apply callee args site, m⟩ hend

/-- A block calls a function, in which a block inside the body fails: three frames are left at once. -/
theorem current_frame_restored_fault :
    let name : Token := ⟨.symbol .identifier, "f", 1⟩
    let inner : Stmt := .block [.expr (.get (.var 0 name) name)]
    let outer : Stmt := .block [.function ⟨name, [], [inner]⟩, .expr (.call (.var 1 name) name [])]
    let m := Machine.initial .nan none
    ∃ m', exec .byName 15 outer m = .fault ⟨name, .noProperties⟩ m' ∧
      m'.store.frames.size = m.store.frames.size + 3 ∧ m'.current = m.current ∧
      interpret .byName 15 [outer] m = execProgram .byName 15 [outer] m := by
  intro name inner outer m
  have h := current_frame_restored .byName 15
  refine ⟨_, rfl, ?_, h.1 outer (m := m) ?_, h.2.2.2.2.2.2 [outer] m rfl⟩
  · rfl
  · rfl

end Run

end Scriptlet
