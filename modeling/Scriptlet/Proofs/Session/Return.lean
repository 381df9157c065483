import Scriptlet.Proofs.Run.Return
import Scriptlet.Proofs.Session.Agreement

/-!
# `return` leaves one call

A `return` may stand in blocks, branches and loops of a function body, and the walk reports it elsewhere.
So in a run of a chunk without reports every `return` that is executed belongs to the call whose body it
stands in (`Leaves`): that call yields the value, and what runs between the two starts nothing any more.

Results:
* `Run.apply_cls`: **calling a class yields a new instance of that class.**
* `Session.return_leaves_one_call`: **`return` leaves exactly one call.**
-/

namespace Scriptlet

open Scope Run Exec

namespace Run

variable {W : World} {Λ : Layout} {m m' : Machine} {n : Nat}

/-- The method that runs when a class is called is visited as a constructor. -/
theorem Belongs.returnless {P : List Stmt → Prop} {st : Store} {decl : ClassDecl} {K : Class}
    {method : Function} {w : Visit} (h : Belongs P st decl K method w) {D : Distances}
    (hsound : Sound D w) (hname : method.name = constructorName) :
    Stmt.ReturnlessAll method.decl.body := by
  obtain ⟨v, -, hclass, hpart⟩ := h.part
  obtain ⟨code, s, ns⟩ := w
  obtain ⟨context, hcode⟩ : ∃ context, code = .function context method.decl := h.code
  subst hcode
  rcases hpart.cases_tail with rfl | ⟨u, -, hstep⟩
  · cases hclass
  have hcontext : context = .constructor := by
    rw [hstep.context h.this, methodContext, if_pos]
    simpa [Function.name] using hname
  subst hcontext
  exact returnless_constructor hsound.clean.errors

/-- **The constructor of a class that fits is returnless.** -/
theorem ClassFits.returnless {c : Class} (h : ClassFits W.programs Λ m.store c) {method : Function}
    (hmethod : c.findMethod constructorName = some method) :
    Stmt.ReturnlessAll method.decl.body := by
  obtain ⟨K, -, decl, w, hbelongs, -⟩ := h.findMethod hmethod
  refine hbelongs.returnless hbelongs.known.sound ?_
  rw [Class.findMethod_eq] at hmethod
  obtain ⟨k, -, hk⟩ := List.exists_of_findSome?_eq_some hmethod
  simpa using List.find?_some hk

/-- Calling a class runs its constructor, whose body is returnless. -/
theorem Starts.constructor_returnless {a b body : Moment} {c : Class} {args : List Value} {site : Token}
    (ha : TaskFits W Λ a.machine a.task) (htask : a.task = .apply (.cls c) args site)
    (hb : Starts W.scoping a b) (hbody : Starts W.scoping b body) : body.task.Returnless := by
  cases hb with
  | constructed hi hmethod hbound =>
    cases htask
    cases hbody with
    | body hframe =>
      have hreturnless := ClassFits.returnless ha.2.1 hmethod
      cases hbound
      exact hreturnless
  | _ => cases htask

/-- **Calling a class yields a new instance of that class.** -/
theorem apply_cls {c : Class} {args : List Value} {site : Token} {value : Value}
    (ha : TaskFits W Λ m (.apply (.cls c) args site))
    (h : apply W.scoping n (.cls c) args site m = .ok value m') :
    ∃ i, value = .object i ∧ m.store.class? i = none ∧ m'.store.class? i = some c := by
  cases n with
  | zero => cases h
  | succ n =>
    obtain ⟨i, m₁, hinstance, h⟩ := bind_eq_ok h
    have hnew : m.store.class? i = none := by
      cases hinstance
      simp [Store.class?]
    have hclass : m₁.store.class? i = some c := by
      cases hinstance
      show (m.store.newInstance c).2.class? m.store.instances.size = _
      rw [Store.class?_newInstance, if_pos rfl]
    cases hmethod : c.findMethod constructorName with
    | none =>
      rw [hmethod] at h
      cases h
      exact ⟨i, rfl, hnew, hclass⟩
    | some method =>
      rw [hmethod] at h
      obtain ⟨bound, m₂, hbound, h⟩ := bind_eq_ok h
      obtain ⟨x, m₃, hcall, h⟩ := bind_eq_ok h
      cases h
      have hlater : m₁.store.Later m₂.store := by
        cases hbound
        exact Store.later_newFrame _ _ _
      have hstarts : Starts W.scoping ⟨n + 1, .apply (.cls c) args site, m⟩ ⟨n, .call bound args, m₂⟩ :=
        .constructed hinstance hmethod hbound
      obtain ⟨Λ', hheap, hfn, hargs, harity⟩ := hstarts.fits ⟨Λ, ha⟩
      obtain ⟨_, hfollows, -⟩ := ((preserves W n).call hheap hfn hargs harity).ok hcall
      exact ⟨i, rfl, hnew, hfollows.later.cls i c (hlater.cls i c hclass)⟩

end Run

namespace Session

variable {s : Session} {ps : List (List Stmt)} {source : String}

/-- A chunk without reports is returnless outside its functions. -/
theorem returnless_of_compile (hreports : (compile source s.nextRef).reports = []) :
    Stmt.ReturnlessAll (compile source s.nextRef).program :=
  returnless_program (compile_sound hreports).2

/-- **`return` leaves exactly one call.** Whatever happened in the session before, in a run of a chunk
without reports no statement at the top level ends with `return`. Nor does the body of a constructor
when a class is called, and if the call does not fail, it yields an instance of that class which was not
there before. And whenever a `return` is executed, it stands in the body of a call that is under way, in
any nesting of blocks, branches and loops; that call yields its value, and nothing else of the body is
started any more. -/
theorem return_leaves_one_call (hs : History s ps)
    (hreports : (compile source s.nextRef).reports = []) :
    let σ := (s.keep (compile source s.nextRef)).scoping
    (∀ n st ss m, s.Passes source ⟨n, .program (st :: ss), m⟩ →
      ∀ v m', exec σ n st m ≠ .ok (.returned v) m') ∧
    (∀ n cls args site m, s.Passes source ⟨n, .apply (.cls cls) args site, m⟩ →
      (∀ b body v m', Starts σ ⟨n, .apply (.cls cls) args site, m⟩ b → Starts σ b body →
        ¬ body.Returns σ v m') ∧
      ∀ value m', apply σ n (.cls cls) args site m = .ok value m' →
        ∃ i, value = .object i ∧ m.store.class? i = none ∧ m'.store.class? i = some cls) ∧
    ∀ n keyword value m, s.Passes source ⟨n + 1, .exec (.ret keyword value), m⟩ →
      ∀ v m', ReturnValue σ n m value v m' →
        (∃ a b fn args, s.Passes source a ∧ a.task = .call fn args ∧ Starts σ a b ∧
          Within σ b ⟨n + 1, .exec (.ret keyword value), m⟩) ∧
        ∀ a b fn args, a.task = .call fn args → Starts σ a b →
          Within σ b ⟨n + 1, .exec (.ret keyword value), m⟩ →
          Leaves σ a fn args ⟨n + 1, .exec (.ret keyword value), m⟩ v m' := by
  intro σ
  have hreturnless := returnless_of_compile hreports
  refine ⟨fun n st ss m hpasses v m' hreturned => ?_, fun n cls args site m hpasses => ?_,
    fun n keyword value m hpasses v m' hvalue => ⟨?_, fun a b fn args htask hb hwithin => ?_⟩⟩
  · obtain ⟨steps, hreach⟩ := hpasses
    obtain ⟨before, hsuffix⟩ := hreach.program rfl
    rw [← hsuffix] at hreturnless
    have hst : Task.Returnless (.exec st) := hreturnless.of_suffix.1
    exact Task.Returnless.not_returns (a := ⟨n, .exec st, m⟩) hst hreturned
  · obtain ⟨Λ, htask⟩ := hpasses.fits hs.fits hreports
    refine ⟨fun b body v m' hb hbody => ?_, fun value m' happly => apply_cls htask happly⟩
    exact (Starts.constructor_returnless htask rfl hb hbody).not_returns
  · obtain ⟨steps, hreach⟩ := hpasses
    rcases hreach.statement rfl with ⟨k, st, rest, m₁, hprogram, hwithin⟩ |
      ⟨a, b, fn, args, ha, htask, hb, hwithin⟩
    · obtain ⟨before, hsuffix⟩ := hprogram.program rfl
      rw [← hsuffix] at hreturnless
      exact (hwithin.returnless hreturnless.of_suffix.1).elim
    · exact ⟨a, b, fn, args, ⟨steps, ha⟩, htask, hb, hwithin⟩
  · exact hb.leaves htask hwithin (returns_ret.mpr hvalue)

theorem starts_applied {σ : Scoping} {n : Nat} {m m' : Machine} {e : Expr} {paren : Token}
    {value : Value} (hcallee : eval σ n e m = .ok value m') (harity : value.arity? = some 0) :
    Starts σ ⟨n + 1, .eval (.call e paren []), m⟩ ⟨n, .apply value [] paren, m'⟩ := by
  cases n with
  | zero => cases hcallee
  | succ n => exact .applied hcallee rfl harity

/-- A `return` is about to be executed, of what calling a class yields. -/
def returnsInstance (σ : Scoping) : Moment → Bool
  | ⟨n + 2, .exec (.ret _ (some (.call callee paren []))), m⟩ =>
    match eval σ n callee m with
    | .ok (.cls c) m =>
      c.arity == 0 && match apply σ n (.cls c) [] paren m with
        | .ok _ _ => true
        | _ => false
    | _ => false
  | _ => false

/-- A function that returns an instance of a class with a constructor, in the first chunk of a session. -/
theorem return_leaves_one_call_instance :
    let source := "class A{constructor(){}}function f(){return A();}f();"
    let s := Session.start .nan none
    let σ := (s.keep (compile source s.nextRef)).scoping
    ∃ n keyword value m v m', s.Passes source ⟨n + 1, .exec (.ret keyword value), m⟩ ∧
      ReturnValue σ n m value v m' ∧
      (∃ a fn args, s.Passes source a ∧ a.task = .call fn args ∧
        Leaves σ a fn args ⟨n + 1, .exec (.ret keyword value), m⟩ v m') ∧
      ∃ k cls site m₁, s.Passes source ⟨k, .apply (.cls cls) [] site, m₁⟩ ∧
        ∃ i, v = .object i ∧ m₁.store.class? i = none ∧ m'.store.class? i = some cls := by
  intro source s σ
  have hreports : (compile source s.nextRef).reports = [] := by decide +kernel
  obtain ⟨-, hconstructs, hreturns⟩ := return_leaves_one_call (.start .nan none) hreports
  obtain ⟨a, hret, hshape⟩ :=
    s.passes_of_any source (returnsInstance σ) 12 12 (by decide +kernel)
  -- One match after the other; the other branches of each say `false`.
  unfold returnsInstance at hshape
  split at hshape
  case h_2 => cases hshape
  rename_i n keyword callee paren m
  split at hshape
  case h_2 => cases hshape
  rename_i cls m₁ hcls
  obtain ⟨harity, hshape⟩ := (Bool.and_eq_true _ _).mp hshape
  split at hshape
  case h_2 => cases hshape
  rename_i v m' happly
  have hstarts : Starts σ ⟨n + 1, .eval (.call callee paren []), m⟩
      ⟨n, .apply (.cls cls) [] paren, m₁⟩ :=
    starts_applied hcls (congrArg some (by simpa using harity))
  have happlied : s.Passes source ⟨n, .apply (.cls cls) [] paren, m₁⟩ := by
    obtain ⟨steps, hreach⟩ := hret
    exact ⟨steps, (hreach.tail .returned).tail hstarts⟩
  have hvalue : ReturnValue σ (n + 1) m (some (.call callee paren [])) v m' := by
    show (eval σ n callee >>= _) _ = _
    rw [bind_of_ok hcls]
    cases n with
    | zero => cases hcls
    | succ n =>
      show (if ([] : List Value).length = cls.arity then _ else _ : Exec Value) m₁ = _
      rw [if_pos (by simpa using (beq_iff_eq.mp harity).symm)]
      exact happly
  obtain ⟨⟨a, b, fn, args, ha, htask, hb, hwithin⟩, hleaves⟩ :=
    hreturns (n + 1) keyword _ _ hret v m' hvalue
  exact ⟨n + 1, keyword, _, _, v, m', hret, hvalue,
    ⟨a, fn, args, ha, htask, hleaves a b fn args htask hb hwithin⟩,
    n, cls, paren, m₁, happlied, (hconstructs n cls [] paren m₁ happlied).2 v m' happly⟩

end Session

end Scriptlet
