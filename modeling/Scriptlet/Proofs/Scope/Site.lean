import Scriptlet.Proofs.Scope.Visit
import Scriptlet.Proofs.Syntax.Over

/-!
# Where errors of the walk are noted

The walk over a program notes its errors at names and keywords of the program. So if all tokens of the
program satisfy a predicate `T`, those at which errors are noted do, and every part that the walk
comes to is made of such tokens as well.

Results:
* `sited_walkStmts`: **errors are noted at tokens of the program.**
* `Visits.over`: a part of a program is made of tokens of the program.
-/

namespace Scriptlet.Scope

variable {T : Token → Prop} {s : State}

/-- All errors noted so far are noted at tokens that satisfy `T`. -/
def State.Sited (T : Token → Prop) (s : State) : Prop := ∀ e ∈ s.errors, T e.token

namespace State.Sited

theorem note (h : s.Sited T) {t : Token} (ht : T t) (f : ScopeFault) : (s.note t f).Sited T := by
  intro e he
  rcases Array.mem_push.mp he with he | rfl
  · exact h e he
  · exact ht

theorem add (h : s.Sited T) (name : String) (readable : Bool) : (s.add name readable).Sited T := by
  unfold State.add
  split <;> exact h

theorem declare (h : s.Sited T) {name : Token} (hname : T name) : (s.declare name).Sited T := by
  unfold State.declare
  split
  · exact h
  · split_ifs
    · exact h.note hname _
    · exact h.add _ _

theorem introduce (h : s.Sited T) {name : Token} (hname : T name) : (s.introduce name).Sited T :=
  (h.declare hname).add _ _

theorem foldl_introduce (h : s.Sited T) {params : List Token} (hparams : ∀ p ∈ params, T p) :
    (params.foldl State.introduce s).Sited T := by
  induction params generalizing s with
  | nil => exact h
  | cons p ps ih =>
    obtain ⟨hp, hps⟩ := List.forall_mem_cons.mp hparams
    exact ih (h.introduce hp) hps

theorem checkReturn (h : s.Sited T) {t : Token} (ht : T t) (hasValue : Bool) :
    (s.checkReturn t hasValue).Sited T := by
  unfold State.checkReturn
  split
  · exact h.note ht _
  · exact h.note ht _
  · exact h
  · exact h

theorem checkSuper (h : s.Sited T) {t : Token} (ht : T t) : (s.checkSuper t).Sited T := by
  unfold State.checkSuper
  split
  · exact h.note ht _
  · exact h.note ht _
  · exact h

theorem enterClass (h : s.Sited T) {name : Token} {superclass : Option Superclass} (hname : T name)
    (hsuperclass : ∀ parent ∈ superclass, T parent.name) :
    (enterClass name superclass s).Sited T := by
  have hbase : ({ s with classes := .base }.introduce name).Sited T :=
    introduce (s := { s with classes := .base }) h hname
  unfold Scope.enterClass
  cases superclass with
  | none => exact hbase
  | some parent =>
    dsimp only
    split_ifs
    · exact hbase.note (hsuperclass parent rfl) _
    · exact hbase

end State.Sited

/-! ## The walk -/

mutual

theorem sited_walkExpr : ∀ (e : Expr) {s : State}, e.Over T → s.Sited T → (walkExpr e s).Sited T
  | .literal _, _, _, h => h
  | .group inner, _, he, h => sited_walkExpr inner he h
  | .unary _ operand, _, he, h => sited_walkExpr operand he.2 h
  | .binary left _ right, _, he, h => sited_walkExpr right he.2.2 (sited_walkExpr left he.1 h)
  | .logical left _ right, _, he, h => sited_walkExpr right he.2.2 (sited_walkExpr left he.1 h)
  | .var ref name, s, he, h => by
    unfold walkExpr
    dsimp only
    split_ifs
    · exact h.note he _
    · exact h
  | .assign _ _ value, _, he, h => sited_walkExpr value he.2 h
  | .call callee _ args, _, he, h => sited_walkExprs args he.2.2 (sited_walkExpr callee he.1 h)
  | .get object _, _, he, h => sited_walkExpr object he.1 h
  | .set object _ value, _, he, h => sited_walkExpr object he.1 (sited_walkExpr value he.2.2 h)
  | .this ref keyword, s, he, h => by
    unfold walkExpr
    split_ifs
    · exact h.note he _
    · exact h
  | .super _ _ _, _, he, h => h.checkSuper he.1

theorem sited_walkExprs : ∀ (es : List Expr) {s : State}, Expr.OverAll T es → s.Sited T →
    (walkExprs es s).Sited T
  | [], _, _, h => h
  | e :: es, _, hes, h => sited_walkExprs es hes.2 (sited_walkExpr e hes.1 h)

end

mutual

theorem sited_walkStmt : ∀ (st : Stmt) {s : State}, st.Over T → s.Sited T → (walkStmt st s).Sited T
  | .expr e, _, hst, h => sited_walkExpr e hst h
  | .declare _ none, _, hst, h => h.introduce hst
  | .declare _ (some init), _, hst, h => (sited_walkExpr init hst.2 (h.declare hst.1)).add _ _
  | .block body, _, hst, h => sited_walkStmts body hst h
  | .branch cond thenDo none, _, hst, h => sited_walkStmt thenDo hst.2 (sited_walkExpr cond hst.1 h)
  | .branch cond thenDo (some elseDo), _, hst, h =>
    sited_walkStmt elseDo hst.2.2 (sited_walkStmt thenDo hst.2.1 (sited_walkExpr cond hst.1 h))
  | .loop cond body, _, hst, h => sited_walkStmt body hst.2 (sited_walkExpr cond hst.1 h)
  | .function ⟨name, params, body⟩, _, hst, h =>
    sited_walkFunction .function ⟨name, params, body⟩ hst (h.introduce hst.1)
  | .ret _ none, _, hst, h => h.checkReturn hst _
  | .ret _ (some value), _, hst, h => sited_walkExpr value hst.2 (h.checkReturn hst.1 _)
  | .classDecl decl, _, hst, h => sited_walkClass decl hst h

theorem sited_walkFunction (context : FunctionContext) : ∀ (d : FunctionDecl) {s : State},
    d.Over T → s.Sited T → (walkFunction context d s).Sited T
  | ⟨_, _, body⟩, s, hd, h =>
    sited_walkStmts body hd.2.2
      (State.Sited.foldl_introduce (s := { s with function := context }.enter []) h hd.2.1)

theorem sited_walkClass : ∀ (d : ClassDecl) {s : State}, d.Over T → s.Sited T →
    (walkClass d s).Sited T
  | ⟨name, superclass, _, methods⟩, s, hd, h => by
    have hmethods := sited_walkMethods methods hd.2.2.2 (h.enterClass hd.1 hd.2.1)
    cases superclass <;> exact hmethods

theorem sited_walkMethods : ∀ (ds : List FunctionDecl) {s : State}, FunctionDecl.OverAll T ds →
    s.Sited T → (walkMethods ds s).Sited T
  | [], _, _, h => h
  | d :: ds, _, hds, h => sited_walkMethods ds hds.2 (sited_walkFunction _ d hds.1 h)

/-- **Errors are noted at tokens of the program.** -/
theorem sited_walkStmts : ∀ (ss : List Stmt) {s : State}, Stmt.OverAll T ss → s.Sited T →
    (walkStmts ss s).Sited T
  | [], _, _, h => h
  | st :: ss, _, hss, h => sited_walkStmts ss hss.2 (sited_walkStmt st hss.1 h)

end

theorem resolve_sited {program : List Stmt} (h : Stmt.OverAll T program) :
    ∀ e ∈ (resolve program).errors, T e.token :=
  sited_walkStmts program h fun e he => absurd he (Array.not_mem_empty e)

/-! ## Parts of a program -/

/-- All tokens of the part satisfy `T`. -/
def Code.Over (T : Token → Prop) : Code → Prop
  | expr e => e.Over T
  | exprs es => Expr.OverAll T es
  | stmt st => st.Over T
  | stmts ss => Stmt.OverAll T ss
  | function _ decl => decl.Over T
  | methods ds => FunctionDecl.OverAll T ds

theorem Step.over {v w : Visit} (h : Step v w) (hv : v.code.Over T) : w.code.Over T := by
  cases h with
  | group | evaluated | block | function => exact hv
  | left | leftLogical | callee | object | setObject | firstExpr | loopCondition | firstMethod
  | firstStmt => exact hv.1
  | operand | assigned | init | loopBody | returned | otherExprs | otherMethods | otherStmts =>
    exact hv.2
  | right | rightLogical | arguments | setValue | body => exact hv.2.2
  | classMethods => exact hv.2.2.2
  | @condition c t o =>
    cases o with
    | none => exact hv.1
    | some e => exact hv.1
  | @thenDo c t o =>
    cases o with
    | none => exact hv.2
    | some e => exact hv.2.1
  | elseDo => exact hv.2.2

/-- **A part of a program is made of tokens of the program.** -/
theorem Visits.over {program : List Stmt} {v : Visit} (h : Visits program v)
    (hprogram : Stmt.OverAll T program) : v.code.Over T := by
  induction h with
  | refl => exact hprogram
  | tail _ hstep ih => exact hstep.over ih

end Scriptlet.Scope
