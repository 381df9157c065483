import Scriptlet.Proofs.Scope.Walk
import Scriptlet.Proofs.Syntax.Like

/-!
# Scopes of trees that are alike

The walk over a program looks at names, never at lines or identities. So over trees that are alike it
opens the same scopes and notes the same faults, and references that stand at the same place are bound
at the same distance. In a program without errors every reference is bound. This is how identities
that the parser gave at will come to answer each other: they are `BoundAlike`.

Results:
* `like_walkStmts`: the walks over trees that are alike stay alike.
* `bound_walkStmts`: references at the same place are bound at the same distance.
* `resolve_like`: **programs that are alike are resolved alike.**
-/

namespace Scriptlet

open List (Forall₂)

/-- The same fault, about tokens that are alike. -/
structure ScopeError.Like (line : Nat → Nat → Prop) (e e' : ScopeError) : Prop where
  token : e.token.Like line e'.token
  fault : e.fault = e'.fault

namespace Scope

open State

/-- The same scopes are open, and the same faults have been noted, up to lines. -/
structure State.Like (line : Nat → Nat → Prop) (s s' : State) : Prop where
  scopes : s.scopes = s'.scopes
  function : s.function = s'.function
  classes : s.classes = s'.classes
  errors : Forall₂ (ScopeError.Like line) s.errors.toList s'.errors.toList

/-! ## Steps of the walk -/

namespace State.Like

variable {line : Nat → Nat → Prop} {s s' : State} {t t' : Token}

theorem note (hs : s.Like line s') (ht : t.Like line t') (fault : ScopeFault) :
    (s.note t fault).Like line (s'.note t' fault) := by
  refine ⟨hs.scopes, hs.function, hs.classes, ?_⟩
  simp only [State.note, Array.toList_push]
  exact List.rel_append hs.errors (.cons ⟨ht, rfl⟩ .nil)

theorem bind (hs : s.Like line s') (ref ref' : RefId) (t t' : Token) :
    (s.bind ref t).Like line (s'.bind ref' t') :=
  ⟨hs.scopes, hs.function, hs.classes, hs.errors⟩

theorem enter (hs : s.Like line s') (names : Names) :
    (s.enter names).Like line (s'.enter names) :=
  ⟨congrArg (names :: ·) hs.scopes, hs.function, hs.classes, hs.errors⟩

theorem leave (hs : s.Like line s') : s.leave.Like line s'.leave :=
  ⟨congrArg List.tail hs.scopes, hs.function, hs.classes, hs.errors⟩

theorem setFunction (hs : s.Like line s') {c c' : FunctionContext} (hc : c = c') :
    State.Like line { s with function := c } { s' with function := c' } :=
  ⟨hs.scopes, hc, hs.classes, hs.errors⟩

theorem setClasses (hs : s.Like line s') {c c' : ClassContext} (hc : c = c') :
    State.Like line { s with classes := c } { s' with classes := c' } :=
  ⟨hs.scopes, hs.function, hc, hs.errors⟩

theorem add (hs : s.Like line s') {x x' : String} (hx : x = x') (readable : Bool) :
    (s.add x readable).Like line (s'.add x' readable) := by
  subst hx
  unfold State.add
  rw [← hs.scopes]
  split
  · exact hs
  · exact ⟨rfl, hs.function, hs.classes, hs.errors⟩

theorem declare (hs : s.Like line s') (ht : t.Like line t') :
    (s.declare t).Like line (s'.declare t') := by
  unfold State.declare
  rw [← hs.scopes, ← ht.lexeme]
  split
  · exact hs
  · split_ifs
    · exact hs.note ht _
    · exact hs.add rfl _

theorem define (hs : s.Like line s') (ht : t.Like line t') : (s.define t).Like line (s'.define t') :=
  hs.add ht.lexeme true

theorem introduce (hs : s.Like line s') (ht : t.Like line t') :
    (s.introduce t).Like line (s'.introduce t') := (hs.declare ht).define ht

theorem introduceAll {params params' : List Token}
    (hparams : Forall₂ (Token.Like line) params params') (hs : s.Like line s') :
    (params.foldl State.introduce s).Like line (params'.foldl State.introduce s') := by
  induction hparams generalizing s s' with
  | nil => exact hs
  | cons ht _ ih => exact ih (hs.introduce ht)

theorem isUnreadable (hs : s.Like line s') (x : String) : s.isUnreadable x = s'.isUnreadable x := by
  unfold State.isUnreadable
  rw [hs.scopes]

theorem distance? (hs : s.Like line s') (x : String) : s.distance? x = s'.distance? x := by
  unfold State.distance?
  rw [hs.scopes]

theorem checkReturn (hs : s.Like line s') (ht : t.Like line t') (hasValue : Bool) :
    (s.checkReturn t hasValue).Like line (s'.checkReturn t' hasValue) := by
  unfold State.checkReturn
  rw [← hs.function]
  split
  · exact hs.note ht _
  · exact hs.note ht _
  · exact hs
  · exact hs

theorem checkSuper (hs : s.Like line s') (ht : t.Like line t') :
    (s.checkSuper t).Like line (s'.checkSuper t') := by
  unfold State.checkSuper
  rw [← hs.classes]
  split
  · exact hs.note ht _
  · exact hs.note ht _
  · exact hs

/-- A variable is read: its fault, if it cannot be read yet. -/
theorem checkVar (hs : s.Like line s') (ht : t.Like line t') :
    State.Like line (if s.isUnreadable t.lexeme then s.note t .ownInitializer else s)
      (if s'.isUnreadable t'.lexeme then s'.note t' .ownInitializer else s') := by
  rw [← hs.isUnreadable, ← ht.lexeme]
  split_ifs
  · exact hs.note ht _
  · exact hs

/-- A class whose superclass is named: its fault, if the superclass is the class itself. -/
theorem checkSuperclass {u u' : Token} (hs : s.Like line s') (ht : t.Like line t')
    (hu : u.Like line u') :
    State.Like line
      (if u.lexeme == t.lexeme then
        ({ s with classes := .base }.introduce t).note u .inheritsFromItself
      else { s with classes := .base }.introduce t)
      (if u'.lexeme == t'.lexeme then
        ({ s' with classes := .base }.introduce t').note u' .inheritsFromItself
      else { s' with classes := .base }.introduce t') := by
  have hbase := (hs.setClasses (c := .base) rfl).introduce ht
  rw [← hu.lexeme, ← ht.lexeme]
  split_ifs
  · exact hbase.note hu _
  · exact hbase

theorem enterClass {P : Pairing} {o o' : Option Superclass} (hs : s.Like P.line s')
    (ht : t.Like P.line t') (ho : Option.Rel (Superclass.Like P) o o') :
    (enterClass t o s).Like P.line (enterClass t' o' s') := by
  cases ho with
  | none => exact ((hs.setClasses rfl).introduce ht).enter _
  | some hparent =>
    exact ((((hs.checkSuperclass ht hparent.name).setClasses rfl).bind _ _ _ _).enter _).enter _

theorem leaveClass {o o' : Option Superclass} {P : Pairing}
    (ho : Option.Rel (Superclass.Like P) o o') (hs : s.Like line s') :
    (leaveClass o s).Like line (leaveClass o' s') := by
  cases ho with
  | none => exact hs.leave
  | some _ => exact hs.leave.leave

end State.Like

/-! ## The walk -/

section
variable {P : Pairing}

mutual

theorem like_walkExpr : ∀ {e e' : Expr} {s s' : State}, e.Like P e' → s.Like P.line s' →
    (walkExpr e s).Like P.line (walkExpr e' s')
  | _, _, _, _, .literal _, hs => hs
  | _, _, _, _, .group he, hs => (like_walkExpr he hs :)
  | _, _, _, _, .unary _ he, hs => (like_walkExpr he hs :)
  | _, _, _, _, .binary hl _ hr, hs => (like_walkExpr hr (like_walkExpr hl hs) :)
  | _, _, _, _, .logical hl _ hr, hs => (like_walkExpr hr (like_walkExpr hl hs) :)
  | _, _, _, _, .var _ hname, hs => (hs.checkVar hname).bind _ _ _ _
  | _, _, _, _, .assign _ _ he, hs => (like_walkExpr he hs).bind _ _ _ _
  | _, _, _, _, .call he _ hargs, hs => like_walkExprs hargs (like_walkExpr he hs)
  | _, _, _, _, .get he _, hs => (like_walkExpr he hs :)
  | _, _, _, _, .set ho _ he, hs => (like_walkExpr ho (like_walkExpr he hs) :)
  | _, _, s, s', .this _ hkeyword, hs => by
    unfold walkExpr
    rw [← hs.classes]
    split_ifs
    · exact hs.note hkeyword _
    · exact hs.bind _ _ _ _
  | _, _, _, _, .super _ hkeyword _, hs => (hs.checkSuper hkeyword).bind _ _ _ _

theorem like_walkExprs : ∀ {es es' : List Expr} {s s' : State}, Forall₂ (Expr.Like P) es es' →
    s.Like P.line s' → (walkExprs es s).Like P.line (walkExprs es' s')
  | _, _, _, _, .nil, hs => hs
  | _, _, _, _, .cons he hes, hs => (like_walkExprs hes (like_walkExpr he hs) :)

end

theorem methodContext_like {line : Nat → Nat → Prop} {t t' : Token} (h : t.Like line t') :
    methodContext t = methodContext t' := by
  unfold methodContext
  rw [h.lexeme]

mutual

theorem like_walkStmt : ∀ {st st' : Stmt} {s s' : State}, st.Like P st' → s.Like P.line s' →
    (walkStmt st s).Like P.line (walkStmt st' s')
  | _, _, _, _, .expr he, hs => like_walkExpr he hs
  | _, _, _, _, .declare hname .none, hs => hs.introduce hname
  | _, _, _, _, .declare hname (.some hinit), hs =>
    (like_walkExpr hinit (hs.declare hname)).define hname
  | _, _, _, _, .block hbody, hs => (like_walkStmts hbody (hs.enter [])).leave
  | _, _, _, _, .branch hc ht .none, hs => (like_walkStmt ht (like_walkExpr hc hs) :)
  | _, _, _, _, .branch hc ht (.some ho), hs =>
    (like_walkStmt ho (like_walkStmt ht (like_walkExpr hc hs)) :)
  | _, _, _, _, .loop hc hb, hs => (like_walkStmt hb (like_walkExpr hc hs) :)
  | _, _, _, _, .function hd, hs => like_walkFunction .function hd (hs.introduce hd.name)
  | _, _, _, _, .ret hkeyword .none, hs => hs.checkReturn hkeyword false
  | _, _, _, _, .ret hkeyword (.some hvalue), hs =>
    like_walkExpr hvalue (hs.checkReturn hkeyword true)
  | _, _, _, _, .classDecl hd, hs => like_walkClass hd hs
termination_by structural st => st

theorem like_walkFunction (context : FunctionContext) : ∀ {d d' : FunctionDecl} {s s' : State},
    d.Like P d' → s.Like P.line s' →
    (walkFunction context d s).Like P.line (walkFunction context d' s')
  | _, _, _, _, .mk _ hparams hbody, hs =>
    (like_walkStmts hbody (.introduceAll hparams ((hs.setFunction rfl).enter []))).leave.setFunction
      hs.function
termination_by structural d => d

theorem like_walkClass : ∀ {d d' : ClassDecl} {s s' : State}, d.Like P d' → s.Like P.line s' →
    (walkClass d s).Like P.line (walkClass d' s')
  | _, _, _, _, .mk hname hsuperclass _ hmethods, hs =>
    (State.Like.leaveClass hsuperclass
      (like_walkMethods hmethods (hs.enterClass hname hsuperclass))).setClasses hs.classes
termination_by structural d => d

theorem like_walkMethods : ∀ {ds ds' : List FunctionDecl} {s s' : State},
    Forall₂ (FunctionDecl.Like P) ds ds' → s.Like P.line s' →
    (walkMethods ds s).Like P.line (walkMethods ds' s')
  | _, _, _, _, .nil, hs => hs
  | _, _, _, _, .cons hd hds, hs => by
    unfold walkMethods
    rw [methodContext_like hd.name]
    exact like_walkMethods hds (like_walkFunction _ hd hs)
termination_by structural ds => ds

theorem like_walkStmts : ∀ {ss ss' : List Stmt} {s s' : State}, Forall₂ (Stmt.Like P) ss ss' →
    s.Like P.line s' → (walkStmts ss s).Like P.line (walkStmts ss' s')
  | _, _, _, _, .nil, hs => hs
  | _, _, _, _, .cons hst hss, hs => (like_walkStmts hss (like_walkStmt hst hs) :)
termination_by structural ss => ss

end

end

/-! ## Distances -/

/-- Two references are bound in two walks, and at the same distance. -/
def BoundAlike (T T' : State) (r r' : RefId) : Prop :=
  ∃ b ∈ T.bindings, ∃ b' ∈ T'.bindings, b.ref = r ∧ b'.ref = r' ∧ b.distance = b'.distance

/-- What is noted in `s` and `s'` is noted when the walks end, in `T` and `T'`; the first notes no
error. -/
structure EndsIn (T T' s s' : State) : Prop where
  left : Noted s T
  right : Noted s' T'
  errors : T.errors = #[]

namespace EndsIn

variable {line : Nat → Nat → Prop} {T T' s s' : State}

theorem before {t t' : State} (h : EndsIn T T' t t') (hs : Noted s t) (hs' : Noted s' t') :
    EndsIn T T' s s' := ⟨hs.trans h.left, hs'.trans h.right, h.errors⟩

theorem expr {e e' : Expr} (h : EndsIn T T' (walkExpr e s) (walkExpr e' s')) : EndsIn T T' s s' :=
  h.before (advance_walkExpr e s).noted (advance_walkExpr e' s').noted

theorem exprs {es es' : List Expr} (h : EndsIn T T' (walkExprs es s) (walkExprs es' s')) :
    EndsIn T T' s s' := h.before (advance_walkExprs es s).noted (advance_walkExprs es' s').noted

theorem stmt {st st' : Stmt} (h : EndsIn T T' (walkStmt st s) (walkStmt st' s')) :
    EndsIn T T' s s' := h.before (advance_walkStmt st s).noted (advance_walkStmt st' s').noted

theorem stmts {ss ss' : List Stmt} (h : EndsIn T T' (walkStmts ss s) (walkStmts ss' s')) :
    EndsIn T T' s s' := h.before (advance_walkStmts ss s).noted (advance_walkStmts ss' s').noted

theorem methods {ds ds' : List FunctionDecl}
    (h : EndsIn T T' (walkMethods ds s) (walkMethods ds' s')) : EndsIn T T' s s' :=
  h.before (advance_walkMethods ds s).1.noted (advance_walkMethods ds' s').1.noted

theorem bind {ref ref' : RefId} {t t' : Token}
    (h : EndsIn T T' (s.bind ref t) (s'.bind ref' t')) : EndsIn T T' s s' :=
  h.before (Advance.bind s ref t).noted (Advance.bind s' ref' t').noted

/-- What is the same for bindings and errors is the same for what is noted. -/
theorem congr {t t' : State} (h : EndsIn T T' t t') (hb : t.bindings = s.bindings)
    (he : t.errors = s.errors) (hb' : t'.bindings = s'.bindings) (he' : t'.errors = s'.errors) :
    EndsIn T T' s s' :=
  h.before ⟨by rw [hb], by rw [he]⟩ ⟨by rw [hb'], by rw [he']⟩

theorem define {t t' : Token} (h : EndsIn T T' (s.define t) (s'.define t')) : EndsIn T T' s s' :=
  h.before (Advance.add s _ _).noted (Advance.add s' _ _).noted

theorem leaveClass {P : Pairing} {o o' : Option Superclass}
    (ho : Option.Rel (Superclass.Like P) o o')
    (h : EndsIn T T' (leaveClass o s) (leaveClass o' s')) : EndsIn T T' s s' := by
  cases ho <;> exact h.congr rfl rfl rfl rfl

/-- References that are bound in states that are alike are bound at the same distance. -/
theorem boundAlike {ref ref' : RefId} {t t' : Token} (hs : s.Like line s') (ht : t.Like line t')
    (h : EndsIn T T' (s.bind ref t) (s'.bind ref' t')) : BoundAlike T T' ref ref' := by
  have hmem {s T : State} {ref : RefId} {t : Token} (h : Noted (s.bind ref t) T) :
      ⟨ref, t.lexeme, s.distance? t.lexeme⟩ ∈ T.bindings :=
    Array.mem_toList_iff.mp (h.bindings.subset (by simp [State.bind]))
  exact ⟨_, hmem h.left, _, hmem h.right, rfl, rfl, by rw [hs.distance?, ht.lexeme]⟩

end EndsIn

section
variable {line : Nat → Nat → Prop} {T T' : State}

mutual

theorem bound_walkExpr : ∀ {e e' : Expr} {s s' : State}, e.Like (.ofLines line) e' →
    s.Like line s' → EndsIn T T' (walkExpr e s) (walkExpr e' s') →
    e.Like ⟨line, BoundAlike T T'⟩ e'
  | _, _, _, _, .literal v, _, _ => .literal v
  | _, _, _, _, .group he, hs, hT => .group (bound_walkExpr he hs hT)
  | _, _, _, _, .unary hop he, hs, hT => .unary hop (bound_walkExpr he hs hT)
  | _, _, _, _, .binary hl hop hr, hs, hT =>
    .binary (bound_walkExpr hl hs (EndsIn.expr hT)) hop (bound_walkExpr hr (like_walkExpr hl hs) hT)
  | _, _, _, _, .logical hl hop hr, hs, hT =>
    .logical (bound_walkExpr hl hs (EndsIn.expr hT)) hop (bound_walkExpr hr (like_walkExpr hl hs) hT)
  | _, _, _, _, .var _ hname, hs, hT => .var (hT.boundAlike (hs.checkVar hname) hname) hname
  | _, _, _, _, .assign _ hname he, hs, hT =>
    .assign (hT.boundAlike (like_walkExpr he hs) hname) hname (bound_walkExpr he hs hT.bind)
  | _, _, _, _, .call he hparen hargs, hs, hT =>
    .call (bound_walkExpr he hs (EndsIn.exprs hT)) hparen
      (bound_walkExprs hargs (like_walkExpr he hs) hT)
  | _, _, _, _, .get he hname, hs, hT => .get (bound_walkExpr he hs hT) hname
  | _, _, _, _, .set ho hname he, hs, hT =>
    .set (bound_walkExpr ho (like_walkExpr he hs) hT) hname (bound_walkExpr he hs (EndsIn.expr hT))
  | _, _, s, s', .this _ hkeyword, hs, hT => by
    have hclass : s.classes ≠ .none := by
      intro hnone
      have hnoted := hT.left.errors
      rw [walkExpr, if_pos hnone, hT.errors] at hnoted
      simp [State.note] at hnoted
    rw [walkExpr, walkExpr, if_neg hclass, if_neg (hs.classes ▸ hclass)] at hT
    exact .this (hT.boundAlike hs hkeyword) hkeyword
  | _, _, _, _, .super _ hkeyword hmethod, hs, hT =>
    .super (hT.boundAlike (hs.checkSuper hkeyword) hkeyword) hkeyword hmethod

theorem bound_walkExprs : ∀ {es es' : List Expr} {s s' : State},
    Forall₂ (Expr.Like (.ofLines line)) es es' → s.Like line s' →
    EndsIn T T' (walkExprs es s) (walkExprs es' s') →
    Forall₂ (Expr.Like ⟨line, BoundAlike T T'⟩) es es'
  | _, _, _, _, .nil, _, _ => .nil
  | _, _, _, _, .cons he hes, hs, hT =>
    .cons (bound_walkExpr he hs (EndsIn.exprs hT)) (bound_walkExprs hes (like_walkExpr he hs) hT)

end

/-- The superclass of a class is bound before the class is entered. -/
theorem bound_enterClass {o o' : Option Superclass} {s s' : State} {t t' : Token}
    (hs : s.Like line s') (ht : t.Like line t')
    (ho : Option.Rel (Superclass.Like (.ofLines line)) o o')
    (hT : EndsIn T T' (enterClass t o s) (enterClass t' o' s')) :
    Option.Rel (Superclass.Like ⟨line, BoundAlike T T'⟩) o o' := by
  cases ho with
  | none => exact .none
  | some hparent =>
    have hbound := EndsIn.boundAlike ((hs.checkSuperclass ht hparent.name).setClasses rfl)
      hparent.name (hT.congr rfl rfl rfl rfl)
    exact .some ⟨hbound, hparent.name⟩

mutual

theorem bound_walkStmt : ∀ {st st' : Stmt} {s s' : State}, st.Like (.ofLines line) st' →
    s.Like line s' → EndsIn T T' (walkStmt st s) (walkStmt st' s') →
    st.Like ⟨line, BoundAlike T T'⟩ st'
  | _, _, _, _, .expr he, hs, hT => .expr (bound_walkExpr he hs hT)
  | _, _, _, _, .declare hname .none, _, _ => .declare hname .none
  | _, _, _, _, .declare hname (.some hinit), hs, hT =>
    .declare hname (.some (bound_walkExpr hinit (hs.declare hname) (EndsIn.define hT)))
  | _, _, _, _, .block hbody, hs, hT =>
    .block (bound_walkStmts hbody (hs.enter []) (hT.congr rfl rfl rfl rfl))
  | _, _, _, _, .branch hc ht .none, hs, hT =>
    .branch (bound_walkExpr hc hs (EndsIn.stmt hT)) (bound_walkStmt ht (like_walkExpr hc hs) hT)
      .none
  | _, _, _, _, .branch hc ht (.some ho), hs, hT =>
    .branch (bound_walkExpr hc hs (EndsIn.stmt (EndsIn.stmt hT)))
      (bound_walkStmt ht (like_walkExpr hc hs) (EndsIn.stmt hT))
      (.some (bound_walkStmt ho (like_walkStmt ht (like_walkExpr hc hs)) hT))
  | _, _, _, _, .loop hc hb, hs, hT =>
    .loop (bound_walkExpr hc hs (EndsIn.stmt hT)) (bound_walkStmt hb (like_walkExpr hc hs) hT)
  | _, _, _, _, .function hd, hs, hT =>
    .function (bound_walkFunction .function hd (hs.introduce hd.name) hT)
  | _, _, _, _, .ret hkeyword .none, _, _ => .ret hkeyword .none
  | _, _, _, _, .ret hkeyword (.some hvalue), hs, hT =>
    .ret hkeyword (.some (bound_walkExpr hvalue (hs.checkReturn hkeyword true) hT))
  | _, _, _, _, .classDecl hd, hs, hT => .classDecl (bound_walkClass hd hs hT)
termination_by structural st => st

theorem bound_walkFunction (context : FunctionContext) : ∀ {d d' : FunctionDecl} {s s' : State},
    d.Like (.ofLines line) d' → s.Like line s' →
    EndsIn T T' (walkFunction context d s) (walkFunction context d' s') →
    d.Like ⟨line, BoundAlike T T'⟩ d'
  | _, _, _, _, .mk hname hparams hbody, hs, hT =>
    .mk hname hparams (bound_walkStmts hbody (.introduceAll hparams ((hs.setFunction rfl).enter []))
      (hT.congr rfl rfl rfl rfl))
termination_by structural d => d

theorem bound_walkClass : ∀ {d d' : ClassDecl} {s s' : State}, d.Like (.ofLines line) d' →
    s.Like line s' → EndsIn T T' (walkClass d s) (walkClass d' s') →
    d.Like ⟨line, BoundAlike T T'⟩ d'
  | ⟨name, superclass, _, methods⟩, ⟨name', superclass', _, methods'⟩, s, s',
      .mk hname hsuperclass hinterface hmethods, hs, hT => by
    have hmethodsT : EndsIn T T' (walkMethods methods (enterClass name superclass s))
        (walkMethods methods' (enterClass name' superclass' s')) :=
      EndsIn.leaveClass hsuperclass (hT.congr rfl rfl rfl rfl)
    exact .mk hname (bound_enterClass hs hname hsuperclass hmethodsT.methods) hinterface
      (bound_walkMethods hmethods (hs.enterClass hname hsuperclass) hmethodsT)
termination_by structural d => d

theorem bound_walkMethods : ∀ {ds ds' : List FunctionDecl} {s s' : State},
    Forall₂ (FunctionDecl.Like (.ofLines line)) ds ds' → s.Like line s' →
    EndsIn T T' (walkMethods ds s) (walkMethods ds' s') →
    Forall₂ (FunctionDecl.Like ⟨line, BoundAlike T T'⟩) ds ds'
  | _, _, _, _, .nil, _, _ => .nil
  | _, _, _, _, .cons hd hds, hs, hT => by
    unfold walkMethods at hT
    rw [methodContext_like hd.name] at hT
    exact .cons (bound_walkFunction _ hd hs hT.methods)
      (bound_walkMethods hds (like_walkFunction _ hd hs) hT)
termination_by structural ds => ds

theorem bound_walkStmts : ∀ {ss ss' : List Stmt} {s s' : State},
    Forall₂ (Stmt.Like (.ofLines line)) ss ss' → s.Like line s' →
    EndsIn T T' (walkStmts ss s) (walkStmts ss' s') →
    Forall₂ (Stmt.Like ⟨line, BoundAlike T T'⟩) ss ss'
  | _, _, _, _, .nil, _, _ => .nil
  | _, _, _, _, .cons hst hss, hs, hT =>
    .cons (bound_walkStmt hst hs (EndsIn.stmts hT)) (bound_walkStmts hss (like_walkStmt hst hs) hT)
termination_by structural ss => ss

end

end

end Scope

/-- **Programs that are alike are resolved alike**: the same faults are noted, and if there are none,
references at the same place are bound at the same distance. -/
theorem resolve_like {line : Nat → Nat → Prop} {program program' : List Stmt}
    (h : Forall₂ (Stmt.Like (.ofLines line)) program program') :
    Forall₂ (ScopeError.Like line) (resolve program).errors.toList
        (resolve program').errors.toList ∧
      ((resolve program).errors = #[] → Forall₂ (Stmt.Like ⟨line,
        Scope.BoundAlike (Scope.walkStmts program {}) (Scope.walkStmts program' {})⟩)
          program program') := by
  have hstart : Scope.State.Like line {} {} := ⟨rfl, rfl, rfl, .nil⟩
  exact ⟨(Scope.like_walkStmts h hstart).errors,
    fun herrors => Scope.bound_walkStmts h hstart ⟨.refl _, .refl _, herrors⟩⟩

end Scriptlet
