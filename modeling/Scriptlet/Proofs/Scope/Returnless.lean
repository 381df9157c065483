import Scriptlet.Proofs.Scope.Rejection

/-!
# Where nothing returns

Outside all functions and in constructors the walk reports every `return`. So code that stands there and
is walked over quietly has no `return` but those of functions declared in it (`Returnless`).

Results:
* `returnless_walkStmts`: **what is walked over quietly outside all functions is returnless.**
* `returnless_constructor`: so is the body of a constructor.
-/

namespace Scriptlet

mutual

/-- **No `return` in the statement**, apart from those of functions declared in it. -/
def Stmt.Returnless : Stmt → Prop
  | .ret _ _ => False
  | .block body => Stmt.ReturnlessAll body
  | .branch _ thenDo none => thenDo.Returnless
  | .branch _ thenDo (some elseDo) => thenDo.Returnless ∧ elseDo.Returnless
  | .loop _ body => body.Returnless
  | _ => True
termination_by structural st => st

def Stmt.ReturnlessAll : List Stmt → Prop
  | [] => True
  | st :: ss => st.Returnless ∧ Stmt.ReturnlessAll ss
termination_by structural ss => ss

end

theorem Stmt.ReturnlessAll.of_suffix {ss : List Stmt} : ∀ {before : List Stmt},
    Stmt.ReturnlessAll (before ++ ss) → Stmt.ReturnlessAll ss
  | [], h => h
  | _ :: _, h => of_suffix h.2

namespace Scope

open State

/-- The walk is where it reports every `return`. -/
def Barred (s : State) : Prop := s.function = .none ∨ s.function = .constructor

section
variable {s t : State}

theorem Barred.later (h : Barred s) (hst : Advance s t) : Barred t := by
  rwa [Barred, hst.function]

theorem Barred.not_quiet (h : Barred s) (keyword : Token) (hasValue : Bool) :
    ¬ Quiet s (s.checkReturn keyword hasValue) := by
  unfold State.checkReturn
  rcases h with h | h <;> rw [h] <;> exact not_quiet_note s keyword _

/-- Of two parts that are walked over quietly together, each is. -/
theorem Quiet.split {u : State} (h : Quiet s u) (hst : Advance s t) (htu : Advance t u) :
    Quiet s t ∧ Quiet t u := (quiet_trans_iff hst.noted htu.noted).mp h

end

mutual

theorem returnless_walkStmt : ∀ (st : Stmt) {s : State}, Barred s → Quiet s (walkStmt st s) →
    st.Returnless
  | .expr _, _, _, _ => trivial
  | .declare _ _, _, _, _ => trivial
  | .block body, s, hs, h => returnless_walkStmts body (s := s.enter []) hs h
  | .branch cond thenDo none, s, hs, h =>
    returnless_walkStmt thenDo (hs.later (advance_walkExpr cond s))
      (h.split (advance_walkExpr cond s) (advance_walkStmt thenDo _)).2
  | .branch cond thenDo (some elseDo), s, hs, h =>
    have hcond := advance_walkExpr cond s
    have hthen := advance_walkStmt thenDo (walkExpr cond s)
    have hsplit := h.split (hcond.trans hthen) (advance_walkStmt elseDo _)
    ⟨returnless_walkStmt thenDo (hs.later hcond) (hsplit.1.split hcond hthen).2,
      returnless_walkStmt elseDo (hs.later (hcond.trans hthen)) hsplit.2⟩
  | .loop cond body, s, hs, h =>
    returnless_walkStmt body (hs.later (advance_walkExpr cond s))
      (h.split (advance_walkExpr cond s) (advance_walkStmt body _)).2
  | .function _, _, _, _ => trivial
  | .ret keyword none, _, hs, h => hs.not_quiet keyword false h
  | .ret keyword (some value), s, hs, h =>
    hs.not_quiet keyword true
      (h.split (.checkReturn s keyword true) (advance_walkExpr value _)).1
  | .classDecl _, _, _, _ => trivial

/-- **What is walked over quietly where every `return` is reported is returnless.** -/
theorem returnless_walkStmts : ∀ (ss : List Stmt) {s : State}, Barred s →
    Quiet s (walkStmts ss s) → Stmt.ReturnlessAll ss
  | [], _, _, _ => trivial
  | st :: ss, s, hs, h =>
    have hst := advance_walkStmt st s
    have hsplit := h.split hst (advance_walkStmts ss _)
    ⟨returnless_walkStmt st hs hsplit.1, returnless_walkStmts ss (hs.later hst) hsplit.2⟩

end

theorem returnless_program {program : List Stmt} (h : (resolve program).errors = #[]) :
    Stmt.ReturnlessAll program :=
  returnless_walkStmts program (s := {}) (.inl rfl) h

/-- Where nothing has been noted at the end, nothing was noted on the way. -/
theorem quiet_of_errors {s t : State} (hst : Noted s t) (h : t.errors = #[]) : Quiet s t := by
  have hprefix := hst.errors
  rw [h] at hprefix
  exact h.trans (Array.toList_eq_nil_iff.mp (List.prefix_nil.mp hprefix)).symm

/-- **The body of a constructor that is walked over quietly is returnless.** -/
theorem returnless_constructor {d : FunctionDecl} {s : State}
    (h : (walkFunction .constructor d s).errors = #[]) : Stmt.ReturnlessAll d.body := by
  obtain ⟨name, params, body⟩ := d
  have hparams := Advance.foldl_introduce params ({ s with function := .constructor }.enter [])
  exact returnless_walkStmts body (.inr hparams.function)
    (quiet_of_errors (advance_walkStmts body _).noted h)

/-- In the scope for `this` and nothing else, the walk comes to a function as to a method. -/
theorem Step.context {v : Visit} {context : FunctionContext} {d : FunctionDecl} {s : State}
    {ns : List (List String)} (h : Step v ⟨.function context d, s, ns⟩)
    (hthis : s.scopes.head? = some [("this", true)]) : context = methodContext d.name := by
  cases h with
  | firstMethod => rfl
  | @function _ s =>
    -- The scope of a function declaration has the name of the function in it, declared and readable.
    exfalso
    unfold introduce State.declare State.define State.add at hthis
    cases hs : s.scopes with
    | nil => simp [hs] at hthis
    | cons scope rest =>
      by_cases hdeclared : (scope.lookup d.name.lexeme).isSome = true
      · simp only [hs, hdeclared, if_true, State.note, List.head?_cons, Option.some.injEq,
          List.cons.injEq] at hthis
        rw [hthis.2] at hdeclared
        cases hdeclared
      · simp [hs, hdeclared] at hthis

end Scope

end Scriptlet
