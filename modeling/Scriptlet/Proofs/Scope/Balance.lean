import Scriptlet.Proofs.Scope.Rejection

/-!
# The walk is balanced

Whatever a statement opens on the walk it closes again. The walk comes out of it in the scopes it went
in with, in the same kind of function and class, and only the innermost scope may have got new names
(`Balanced`). That holds where errors are noted as well, since an error never cuts the walk short
between an opening and its closing.

What has been noted is only ever added to and never looked at. It can be put in front of the notes of a
state before the walk or after it (`State.following`). Outside all scopes nothing else is carried from
one statement to the next, so the parts of a program are resolved each on its own.

Results:
* `balanced_walkStmt`: what a statement leaves of the state.
* `walkStmts_following`: **what has been noted before does not matter to the walk.**
* `walk_composes`: **the walk is balanced, and a program is resolved part by part.**
-/

namespace Scriptlet.Scope

open State

/-! ## Balance -/

/-- **The walk has come out of a statement as it went in**, but for the names that the statement
declares in the innermost scope, if there is one. -/
structure Balanced (s : State) (names : List String) (t : State) : Prop where
  depth : t.scopes.length = s.scopes.length
  outer : t.scopes.tail = s.scopes.tail
  function : t.function = s.function
  classes : t.classes = s.classes
  /-- The names can be read, new or not; of every other name the innermost scope says what it did. -/
  innermost (x : String) : t.found x = if s.scopes ≠ [] ∧ x ∈ names then some true else s.found x

theorem Adds.balanced {s t : State} {names : List String} (h : Adds s names t) :
    Balanced s names t :=
  ⟨h.advance.scopes.length_eq, h.advance.scopes.tail, h.advance.function, h.advance.classes, h.found⟩

/-- **The walk comes out of every statement as it went in**, with or without errors. -/
theorem balanced_walkStmt (st : Stmt) (s : State) : Balanced s st.names (walkStmt st s) :=
  (adds_walkStmt st s).balanced

/-! ## What has been noted before -/

namespace State

/-- The state, with the notes of an earlier one before its own. -/
def following (s earlier : State) : State :=
  { s with
    bindings := earlier.bindings ++ s.bindings
    errors := earlier.errors ++ s.errors }

variable (s earlier : State)

@[simp]
theorem note_following (t : Token) (f : ScopeFault) :
    (s.following earlier).note t f = (s.note t f).following earlier := by
  simp [note, following]

@[simp]
theorem bind_following (ref : RefId) (t : Token) :
    (s.following earlier).bind ref t = (s.bind ref t).following earlier := by
  simp [bind, following, distance?]

@[simp]
theorem enter_following (names : Names) :
    (s.following earlier).enter names = (s.enter names).following earlier := rfl

@[simp]
theorem leave_following : (s.following earlier).leave = s.leave.following earlier := rfl

@[simp]
theorem isUnreadable_following (x : String) :
    (s.following earlier).isUnreadable x = s.isUnreadable x := rfl

@[simp]
theorem add_following (x : String) (readable : Bool) :
    (s.following earlier).add x readable = (s.add x readable).following earlier := by
  unfold add
  simp only [following]
  split <;> rfl

@[simp]
theorem declare_following (t : Token) :
    (s.following earlier).declare t = (s.declare t).following earlier := by
  unfold declare
  rw [note_following, add_following]
  simp only [following]
  split
  · rfl
  · split_ifs <;> rfl

@[simp]
theorem define_following (t : Token) :
    (s.following earlier).define t = (s.define t).following earlier :=
  add_following s earlier _ _

@[simp]
theorem introduce_following (t : Token) :
    (s.following earlier).introduce t = (s.introduce t).following earlier := by
  simp [introduce]

@[simp]
theorem introduceAll_following (ts : List Token) :
    ts.foldl introduce (s.following earlier) = (ts.foldl introduce s).following earlier := by
  induction ts generalizing s with
  | nil => rfl
  | cons t ts ih => rw [List.foldl_cons, introduce_following, ih, List.foldl_cons]

@[simp]
theorem checkReturn_following (t : Token) (hasValue : Bool) :
    (s.following earlier).checkReturn t hasValue = (s.checkReturn t hasValue).following earlier := by
  have hfunction : (s.following earlier).function = s.function := rfl
  unfold checkReturn
  rw [hfunction]
  cases s.function <;> simp

@[simp]
theorem checkSuper_following (t : Token) :
    (s.following earlier).checkSuper t = (s.checkSuper t).following earlier := by
  have hclasses : (s.following earlier).classes = s.classes := rfl
  unfold checkSuper
  rw [hclasses]
  cases s.classes <;> simp

/-- Outside everything there is nothing to a state but its notes. -/
theorem eq_following (hscopes : s.scopes = []) (hfunction : s.function = .none)
    (hclasses : s.classes = .none) : s = State.following {} s := by
  cases s
  cases hscopes
  cases hfunction
  cases hclasses
  simp [following]

end State

/-! ## The walk -/

section
variable (earlier : State)

mutual

theorem walkExpr_following : ∀ (e : Expr) (s : State),
    walkExpr e (s.following earlier) = (walkExpr e s).following earlier
  | .literal _, _ => rfl
  | .group inner, s => walkExpr_following inner s
  | .unary _ operand, s => walkExpr_following operand s
  | .binary left _ right, s => by
    simp only [walkExpr, walkExpr_following left, walkExpr_following right]
  | .logical left _ right, s => by
    simp only [walkExpr, walkExpr_following left, walkExpr_following right]
  | .var ref name, s => by
    unfold walkExpr
    rw [isUnreadable_following]
    split_ifs <;> simp
  | .assign ref name value, s => by
    simp only [walkExpr, walkExpr_following value, bind_following]
  | .call callee _ args, s => by
    simp only [walkExpr, walkExpr_following callee, walkExprs_following args]
  | .get object _, s => walkExpr_following object s
  | .set object _ value, s => by
    simp only [walkExpr, walkExpr_following value, walkExpr_following object]
  | .this ref keyword, s => by
    have hclasses : (s.following earlier).classes = s.classes := rfl
    unfold walkExpr
    rw [hclasses]
    split_ifs <;> simp
  | .super ref keyword method, s => by simp [walkExpr]

theorem walkExprs_following : ∀ (es : List Expr) (s : State),
    walkExprs es (s.following earlier) = (walkExprs es s).following earlier
  | [], _ => rfl
  | e :: es, s => by
    simp only [walkExprs, walkExpr_following e, walkExprs_following es]

end

theorem enterClass_following (name : Token) (superclass : Option Superclass) (s : State) :
    enterClass name superclass (s.following earlier) =
      (enterClass name superclass s).following earlier := by
  have hbase : { s.following earlier with classes := .base } =
      State.following { s with classes := .base } earlier := rfl
  have hderived (u : State) : { u.following earlier with classes := .derived } =
      State.following { u with classes := .derived } earlier := rfl
  unfold enterClass
  rw [hbase]
  cases superclass with
  | none => simp
  | some parent =>
    dsimp only
    split_ifs <;> simp [hderived]

theorem leaveClass_following (superclass : Option Superclass) (s : State) :
    leaveClass superclass (s.following earlier) = (leaveClass superclass s).following earlier := by
  cases superclass <;> rfl

mutual

theorem walkStmt_following : ∀ (st : Stmt) (s : State),
    walkStmt st (s.following earlier) = (walkStmt st s).following earlier
  | .expr e, s => walkExpr_following earlier e s
  | .declare name none, s => introduce_following s earlier name
  | .declare name (some init), s => by
    simp only [walkStmt, declare_following, walkExpr_following, define_following]
  | .block body, s => by
    simp only [walkStmt, enter_following, walkStmts_following body, leave_following]
  | .branch cond thenDo none, s => by
    simp only [walkStmt, walkExpr_following, walkStmt_following thenDo]
  | .branch cond thenDo (some elseDo), s => by
    simp only [walkStmt, walkExpr_following, walkStmt_following thenDo, walkStmt_following elseDo]
  | .loop cond body, s => by
    simp only [walkStmt, walkExpr_following, walkStmt_following body]
  | .function decl, s => by
    simp only [walkStmt, introduce_following, walkFunction_following .function decl]
  | .ret keyword none, s => checkReturn_following s earlier keyword false
  | .ret keyword (some value), s => by
    simp only [walkStmt, checkReturn_following, walkExpr_following]
  | .classDecl decl, s => walkClass_following decl s

theorem walkFunction_following (context : FunctionContext) : ∀ (decl : FunctionDecl) (s : State),
    walkFunction context decl (s.following earlier) =
      (walkFunction context decl s).following earlier
  | ⟨_, params, body⟩, s => by
    have hcontext : { s.following earlier with function := context } =
        State.following { s with function := context } earlier := rfl
    unfold walkFunction
    simp only [hcontext, enter_following, introduceAll_following, walkStmts_following body,
      leave_following]
    rfl

theorem walkClass_following : ∀ (decl : ClassDecl) (s : State),
    walkClass decl (s.following earlier) = (walkClass decl s).following earlier
  | ⟨name, superclass, _, methods⟩, s => by
    unfold walkClass
    simp only [enterClass_following, walkMethods_following methods, leaveClass_following]
    rfl

theorem walkMethods_following : ∀ (ds : List FunctionDecl) (s : State),
    walkMethods ds (s.following earlier) = (walkMethods ds s).following earlier
  | [], _ => rfl
  | d :: ds, s => by
    simp only [walkMethods, walkFunction_following _ d, walkMethods_following ds]

/-- **What has been noted before does not matter to the walk**, and stays in front of what it notes. -/
theorem walkStmts_following : ∀ (ss : List Stmt) (s : State),
    walkStmts ss (s.following earlier) = (walkStmts ss s).following earlier
  | [], _ => rfl
  | st :: ss, s => by
    simp only [walkStmts, walkStmt_following st, walkStmts_following ss]

end

end

/-! ## Programs -/

/-- After some statements of a program the others are walked over as if they were the first. -/
theorem walkStmts_start_append (ss ts : List Stmt) :
    walkStmts (ss ++ ts) {} = (walkStmts ts {}).following (walkStmts ss {}) := by
  have hss := advance_walkStmts ss {}
  have houtside : walkStmts ss {} = State.following {} (walkStmts ss {}) :=
    eq_following _ (hss.nested.mpr rfl) hss.function hss.classes
  calc walkStmts (ss ++ ts) {}
      = walkStmts ts (walkStmts ss {}) := walkStmts_append ss ts {}
    _ = walkStmts ts (State.following {} (walkStmts ss {})) := congrArg (walkStmts ts) houtside
    _ = (walkStmts ts {}).following (walkStmts ss {}) := walkStmts_following _ ts {}

/-- **The walk is balanced, and a program is resolved part by part.**

Every statement, in whatever state the walk comes to it and whatever errors are noted in it, leaves as
many scopes open as there were, all but the innermost as they were, and the kinds of function and class
that the walk is in. In the innermost scope the names that the statement declares can be read
afterwards, and nothing else has changed.

So the bindings and errors of a program are those of its first statements followed by those of the
others, wherever it is divided. -/
theorem walk_composes :
    (∀ st s, Balanced s st.names (walkStmt st s)) ∧
    ∀ ss ts, (resolve (ss ++ ts)).bindings = (resolve ss).bindings ++ (resolve ts).bindings ∧
      (resolve (ss ++ ts)).errors = (resolve ss).errors ++ (resolve ts).errors := by
  refine ⟨balanced_walkStmt, fun ss ts => ?_⟩
  have hwalk := walkStmts_start_append ss ts
  exact ⟨congrArg State.bindings hwalk, congrArg State.errors hwalk⟩

end Scriptlet.Scope
