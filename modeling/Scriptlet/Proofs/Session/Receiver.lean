import Scriptlet.Proofs.Session.Agreement

/-!
# `this` and `super`

A method is bound to a receiver when it is taken from an instance, and then it is a value like any
other: it may be stored, passed on and called from anywhere, and functions made in its body may be
called when it has long returned. What `this` and `super` are in all these bodies was settled before.

Results:
* `Session.receiver_kept`: **`this` is the instance the method was bound to**, an instance of the
  method's class or of one below it, and `super` looks for methods from the superclass upwards that the
  method's class was declared with.
-/

namespace Scriptlet

open Scope Run Exec

namespace Session

/-- **The part runs in the body of a bound method**, and `this` and `super` are what the method says. -/
structure Keeps (programs : List (List Stmt)) (distances : Distances) (m : Machine) (v : Visit)
    (A : Activation) : Prop where
  runs : A.Runs (· ∈ programs) m.store m.current v
  /-- `this` is the receiver. -/
  this (n : Nat) (ref : RefId) (keyword : Token) : v.code = .expr (.this ref keyword) →
    eval (.byDistance distances) (n + 1) (.this ref keyword) m = .ok (.object A.receiver) m
  /-- `super.name` is the first method of that name from the superclass upwards, bound to the same
  receiver; if there is none, the property is undefined. -/
  super (n : Nat) (ref : RefId) (keyword name : Token) : v.code = .expr (.super ref keyword name) →
    ∃ parent, A.cls.superclass = some parent ∧
      match parent.chain.findSome? fun K => K.methods.find? (·.name == name.lexeme) with
      | some method => ∃ fn m',
        eval (.byDistance distances) (n + 1) (.super ref keyword name) m = .ok (.function fn) m' ∧
          Bound m'.store method A.receiver fn
      | none => eval (.byDistance distances) (n + 1) (.super ref keyword name) m =
        .fault ⟨name, .undefinedProperty name.lexeme⟩ m

theorem keeps_of_runs {W : World} {Λ : Layout} {m : Machine} {v : Visit}
    {programs : List (List Stmt)} (hW : ∀ program, W.programs program → program ∈ programs)
    (h : At W Λ m v) (hclass : v.state.classes ≠ .none) :
    ∃ A, Keeps programs W.distances m v A := by
  have hruns {A : Activation} (hA : A.Runs W.programs m.store m.current v) :
      A.Runs (· ∈ programs) m.store m.current v := hA.later hW (.refl _)
  obtain ⟨code, s, ns⟩ := v
  -- Which bound method it is, is known from the part; `this` and `super` say what they find.
  by_cases hthis : ∃ ref keyword, code = .expr (.this ref keyword)
  · obtain ⟨ref, keyword, rfl⟩ := hthis
    obtain ⟨A, hA, hread⟩ := h.this_reads rfl
    refine ⟨A, hruns hA, fun n ref' keyword' hcode => ?_, fun n ref' keyword' name hcode => ?_⟩
    · cases hcode
      exact hread
    · cases hcode
  by_cases hsuper : ∃ ref keyword name, code = .expr (.super ref keyword name)
  · obtain ⟨ref, keyword, name, rfl⟩ := hsuper
    obtain ⟨A, parent, hA, hparent, hread, hreceiver, -⟩ := h.super_reads rfl
    refine ⟨A, hruns hA, fun n ref' keyword' hcode => ?_, fun n ref' keyword' name' hcode =>
      ⟨parent, hparent, ?_⟩⟩
    · cases hcode
    cases hcode
    have heval : eval (.byDistance W.distances) (n + 1) (.super ref keyword name) m =
        superMethod (.byDistance W.distances) ref keyword name m := rfl
    rw [← Class.findMethod_eq, heval, superMethod, bind_of_ok hread]
    dsimp only
    rw [bind_of_ok hreceiver]
    dsimp only
    cases parent.findMethod name.lexeme with
    | some method => exact ⟨_, _, rfl, m, _, rfl, .refl _⟩
    | none => rfl
  · obtain ⟨k, hk, -⟩ := h.sound.receives hclass
    obtain ⟨A, hA⟩ := h.home (by simp [hk])
    exact ⟨A, hruns hA, fun _ ref keyword hcode => absurd ⟨ref, keyword, hcode⟩ hthis,
      fun _ ref keyword name hcode => absurd ⟨ref, keyword, name, hcode⟩ hsuper⟩

variable {s : Session} {ps : List (List Stmt)} {source : String}

/-- **`this` and `super` are lexical and keep their receiver.** Whatever happened in the session before:
whenever a run of a chunk without reports comes to a part of a class, in this chunk or an earlier one,
that part runs in the body of a method that was made with a class `A.cls` by its declaration and bound
to an instance `A.receiver`. The class is in the chain of the receiver's class. `this` is the receiver,
and `super` looks for methods upwards from the superclass that `A.cls` was made with, and binds them to
the same receiver. -/
theorem receiver_kept (hs : History s ps) (hreports : (compile source s.nextRef).reports = [])
    {a : Moment} (ha : s.Passes source a) {code : Code} (hcode : a.task.node? = some code) :
    let programs := (compile source s.nextRef).program :: ps
    let distances := (s.keep (compile source s.nextRef)).distances
    ∃ program ∈ programs, ∃ v, Visits program v ∧ v.code = code ∧
      (v.state.classes ≠ .none → ∃ A, Keeps programs distances a.machine v A) := by
  intro programs distances
  obtain ⟨Λ, htask⟩ := ha.fits hs.fits hreports
  obtain ⟨v, hat, rfl⟩ := htask.at_node hcode
  obtain ⟨program, hprogram, hv⟩ := hat.known
  exact ⟨program, hprogram, v, hv, rfl, keeps_of_runs (fun _ hp => hp) hat⟩

/-- A constructor that looks for a method of the superclass, in the first chunk of a session. -/
theorem receiver_kept_constructor :
    let c := compile "class A{m(){}}class B extends A{constructor(){super.m;}}B();" 0
    ∃ a ref keyword name,
      (Session.start .nan none).Passes
        "class A{m(){}}class B extends A{constructor(){super.m;}}B();" a ∧
      a.task = .eval (.super ref keyword name) ∧
      ∃ program ∈ [c.program], ∃ v, Visits program v ∧ v.code = .expr (.super ref keyword name) ∧
        (v.state.classes ≠ .none → ∃ A,
          Keeps [c.program] ((Session.start .nan none).keep c).distances a.machine v A) := by
  intro c
  have hreports : c.reports = [] := by decide +kernel
  obtain ⟨a, ref, keyword, name, hpasses, htask⟩ := (Session.start .nan none).passes_super
    "class A{m(){}}class B extends A{constructor(){super.m;}}B();" 12 12 (by decide +kernel)
  exact ⟨a, ref, keyword, name, hpasses, htask,
    receiver_kept (.start .nan none) hreports hpasses (congrArg Task.node? htask)⟩

end Session

end Scriptlet
