import Scriptlet.Scope
import Scriptlet.Proofs.Syntax.Proper
import Scriptlet.Proofs.Syntax.Identity

/-!
# What the walk leaves behind

The walk over a program only adds to its bindings and errors (`Noted`), restores the kinds of
function and class it is in, and leaves the open scopes as they were, but for what a statement
declares in the innermost one (`Grown`). What a proper statement leaves there is known exactly:
nothing, or its one name, readable.

Results:
* `advance_walkExpr`, `advance_walkStmts`: the walk only goes forward.
* `scopes_walkExpr`, `scopes_walkStmt`: the scopes after an expression and after a statement.
* `bindings_walkStmts`: the bindings are those of the references of the program.
-/

namespace Scriptlet.Scope

open State

/-! ## Steps of the walk -/

/-- What is noted in `s` is still noted in `s'`, and in the same order. -/
structure Noted (s s' : State) : Prop where
  bindings : s.bindings.toList <+: s'.bindings.toList
  errors : s.errors.toList <+: s'.errors.toList

theorem Noted.refl (s : State) : Noted s s := ⟨List.prefix_refl _, List.prefix_refl _⟩

theorem Noted.trans {s t u : State} (h : Noted s t) (h' : Noted t u) : Noted s u :=
  ⟨h.bindings.trans h'.bindings, h.errors.trans h'.errors⟩

/-- The same scopes, but for what has been added to the innermost one. -/
inductive Grown : List Names → List Names → Prop
  | none : Grown [] []
  | some (new scope : Names) (rest : List Names) : Grown (scope :: rest) ((new ++ scope) :: rest)

theorem Grown.refl : ∀ scopes, Grown scopes scopes
  | [] => .none
  | scope :: rest => .some [] scope rest

theorem Grown.trans {a b c : List Names} (h : Grown a b) (h' : Grown b c) : Grown a c := by
  cases h with
  | none => exact h'
  | some new scope rest =>
    cases h' with
    | some new' _ _ =>
      rw [← List.append_assoc]
      exact .some _ _ _

theorem Grown.tail {a b : List Names} (h : Grown a b) : b.tail = a.tail := by
  cases h <;> rfl

theorem Grown.length_eq {a b : List Names} (h : Grown a b) : b.length = a.length := by
  cases h <;> rfl

/-- The walk has gone from `s` to `s'` without leaving the scopes it was in. -/
structure Advance (s s' : State) : Prop where
  noted : Noted s s'
  function : s'.function = s.function
  classes : s'.classes = s.classes
  scopes : Grown s.scopes s'.scopes

namespace Advance

variable {s t u : State}

theorem refl (s : State) : Advance s s := ⟨.refl s, rfl, rfl, .refl _⟩

theorem trans (h : Advance s t) (h' : Advance t u) : Advance s u :=
  ⟨h.noted.trans h'.noted, h'.function.trans h.function, h'.classes.trans h.classes,
    h.scopes.trans h'.scopes⟩

/-- Outside all scopes the walk stays there. -/
theorem nested (h : Advance s t) : t.scopes = [] ↔ s.scopes = [] := by
  rw [← List.length_eq_zero_iff, h.scopes.length_eq, List.length_eq_zero_iff]

theorem note (s : State) (t : Token) (f : ScopeFault) : Advance s (s.note t f) :=
  ⟨⟨List.prefix_refl _, by simp [State.note]⟩, rfl, rfl, .refl _⟩

theorem bind (s : State) (ref : RefId) (name : Token) : Advance s (s.bind ref name) :=
  ⟨⟨by simp [State.bind], List.prefix_refl _⟩, rfl, rfl, .refl _⟩

theorem add (s : State) (name : String) (readable : Bool) : Advance s (s.add name readable) := by
  unfold State.add
  split
  · exact refl s
  · next scope rest h =>
    refine ⟨⟨List.prefix_refl _, List.prefix_refl _⟩, rfl, rfl, ?_⟩
    rw [h]
    exact .some [(name, readable)] scope rest

theorem declare (s : State) (name : Token) : Advance s (s.declare name) := by
  unfold State.declare
  split
  · exact refl s
  · split_ifs
    · exact note s _ _
    · exact add s _ _

theorem introduce (s : State) (name : Token) : Advance s (s.introduce name) :=
  (declare s name).trans (add _ _ _)

theorem foldl_introduce (params : List Token) (s : State) :
    Advance s (params.foldl State.introduce s) := by
  induction params generalizing s with
  | nil => exact refl s
  | cons p ps ih => exact (introduce s p).trans (ih _)

theorem checkReturn (s : State) (t : Token) (b : Bool) : Advance s (s.checkReturn t b) := by
  unfold State.checkReturn
  split
  · exact note s _ _
  · exact note s _ _
  · exact refl s
  · exact refl s

theorem checkSuper (s : State) (t : Token) : Advance s (s.checkSuper t) := by
  unfold State.checkSuper
  split
  · exact note s _ _
  · exact note s _ _
  · exact refl s

end Advance

/-! ## Expressions -/

mutual

theorem advance_walkExpr : ∀ (e : Expr) (s : State), Advance s (walkExpr e s)
  | .literal _, s => .refl s
  | .group inner, s => advance_walkExpr inner s
  | .unary _ operand, s => advance_walkExpr operand s
  | .binary left _ right, s => (advance_walkExpr left s).trans (advance_walkExpr right _)
  | .logical left _ right, s => (advance_walkExpr left s).trans (advance_walkExpr right _)
  | .var ref name, s => by
    have hread :
        Advance s (if s.isUnreadable name.lexeme then s.note name .ownInitializer else s) := by
      split_ifs
      · exact .note s _ _
      · exact .refl s
    exact hread.trans (.bind _ ref name)
  | .assign ref name value, s => (advance_walkExpr value s).trans (.bind _ ref name)
  | .call callee _ args, s => (advance_walkExpr callee s).trans (advance_walkExprs args _)
  | .get object _, s => advance_walkExpr object s
  | .set object _ value, s => (advance_walkExpr value s).trans (advance_walkExpr object _)
  | .this ref keyword, s => by
    unfold walkExpr
    split_ifs
    · exact .note s _ _
    · exact .bind s ref keyword
  | .super ref keyword _, s => (Advance.checkSuper s keyword).trans (.bind _ ref keyword)

theorem advance_walkExprs : ∀ (es : List Expr) (s : State), Advance s (walkExprs es s)
  | [], s => .refl s
  | e :: es, s => (advance_walkExpr e s).trans (advance_walkExprs es _)

end

@[simp]
theorem scopes_bind (s : State) (ref : RefId) (t : Token) : (s.bind ref t).scopes = s.scopes := rfl

@[simp]
theorem scopes_checkSuper (s : State) (t : Token) : (s.checkSuper t).scopes = s.scopes := by
  unfold State.checkSuper
  split <;> rfl

@[simp]
theorem scopes_checkReturn (s : State) (t : Token) (b : Bool) :
    (s.checkReturn t b).scopes = s.scopes := by
  unfold State.checkReturn
  split <;> rfl

mutual

/-- **An expression leaves the scopes as they are.** -/
theorem scopes_walkExpr : ∀ (e : Expr) (s : State), (walkExpr e s).scopes = s.scopes
  | .literal _, _ => rfl
  | .group inner, s => scopes_walkExpr inner s
  | .unary _ operand, s => scopes_walkExpr operand s
  | .binary left _ right, s => (scopes_walkExpr right _).trans (scopes_walkExpr left s)
  | .logical left _ right, s => (scopes_walkExpr right _).trans (scopes_walkExpr left s)
  | .var ref name, s => by
    unfold walkExpr
    simp only [scopes_bind]
    split_ifs <;> rfl
  | .assign ref name value, s => scopes_walkExpr value s
  | .call callee _ args, s => (scopes_walkExprs args _).trans (scopes_walkExpr callee s)
  | .get object _, s => scopes_walkExpr object s
  | .set object _ value, s => (scopes_walkExpr object _).trans (scopes_walkExpr value s)
  | .this ref keyword, s => by
    unfold walkExpr
    split_ifs <;> rfl
  | .super ref keyword _, s => scopes_checkSuper s keyword

theorem scopes_walkExprs : ∀ (es : List Expr) (s : State), (walkExprs es s).scopes = s.scopes
  | [], _ => rfl
  | e :: es, s => (scopes_walkExprs es _).trans (scopes_walkExpr e s)

end

/-! ## Statements -/

/-- What goes on in a scope of its own leaves the scopes around it as they were. -/
theorem Advance.leave {s s' : State} {names : Names} (h : Advance (s.enter names) s') :
    Advance s s'.leave ∧ s'.leave.scopes = s.scopes := by
  have hscopes : s'.leave.scopes = s.scopes := h.scopes.tail
  refine ⟨⟨⟨h.noted.bindings, h.noted.errors⟩, h.function, h.classes, ?_⟩, hscopes⟩
  rw [hscopes]
  exact .refl _

/-- The scopes of a class, innermost first. -/
def classScopes : Option Superclass → List Names
  | none => [[("this", true)]]
  | some _ => [[("this", true)], [("super", true)]]

/-- What kind of class the methods of a class are in. -/
def classContext : Option Superclass → ClassContext
  | none => .base
  | some _ => .derived

theorem scopes_enterClass (name : Token) (superclass : Option Superclass) (s : State) :
    (enterClass name superclass s).scopes =
      classScopes superclass ++ (s.introduce name).scopes := by
  have hclass (c : ClassContext) (s : State) :
      ({ s with classes := c }.introduce name).scopes = (s.introduce name).scopes := by
    simp only [introduce, State.declare, State.define, State.add]
    cases hs : s.scopes with
    | nil => simp [hs]
    | cons scope rest => simp only [State.note]; split_ifs <;> simp [hs]
  cases superclass with
  | none => simp [enterClass, classScopes, enter, hclass]
  | some parent =>
    simp only [enterClass, classScopes, enter, State.bind]
    split_ifs <;> simp [State.note, hclass]

theorem enterClass_context (name : Token) (superclass : Option Superclass) (s : State) :
    (enterClass name superclass s).classes = classContext superclass ∧
      (enterClass name superclass s).function = s.function := by
  have hclasses := (Advance.introduce { s with classes := .base } name).classes
  have hfunction := (Advance.introduce { s with classes := .base } name).function
  cases superclass with
  | none => exact ⟨hclasses, hfunction⟩
  | some parent =>
    simp only [enterClass, classContext, enter, State.bind]
    split_ifs <;> exact ⟨trivial, hfunction⟩

theorem noted_enterClass (name : Token) (superclass : Option Superclass) (s : State) :
    Noted s (enterClass name superclass s) := by
  have hbase := (Advance.introduce { s with classes := .base } name).noted
  have hintroduce : Noted s ({ s with classes := .base }.introduce name) :=
    ⟨hbase.bindings, hbase.errors⟩
  cases superclass with
  | none => exact ⟨hintroduce.bindings, hintroduce.errors⟩
  | some parent =>
    refine hintroduce.trans ?_
    simp only [enterClass, enter, State.bind]
    split_ifs
    · exact ⟨by simp [State.note], by simp [State.note]⟩
    · exact ⟨by simp, List.prefix_refl _⟩

theorem leaveClass_spec (superclass : Option Superclass) {s s' : State} {scopes : List Names}
    (hs : s.scopes = classScopes superclass ++ scopes) (h : Advance s s')
    (hscopes : s'.scopes = s.scopes) :
    Noted s (leaveClass superclass s') ∧ (leaveClass superclass s').function = s.function ∧
      (leaveClass superclass s').scopes = scopes := by
  have hnoted : Noted s (leaveClass superclass s') := by
    cases superclass <;> exact ⟨h.noted.bindings, h.noted.errors⟩
  refine ⟨hnoted, ?_, ?_⟩
  · cases superclass <;> exact h.function
  · cases superclass <;> simp [leaveClass, leave, hscopes, hs, classScopes]

mutual

theorem advance_walkStmt : ∀ (st : Stmt) (s : State), Advance s (walkStmt st s)
  | .expr e, s => advance_walkExpr e s
  | .declare name none, s => .introduce s name
  | .declare name (some init), s =>
    ((Advance.declare s name).trans (advance_walkExpr init _)).trans (.add _ _ _)
  | .block body, s => (advance_walkStmts body (s.enter [])).leave.1
  | .branch cond thenDo none, s => (advance_walkExpr cond s).trans (advance_walkStmt thenDo _)
  | .branch cond thenDo (some elseDo), s =>
    ((advance_walkExpr cond s).trans (advance_walkStmt thenDo _)).trans (advance_walkStmt elseDo _)
  | .loop cond body, s => (advance_walkExpr cond s).trans (advance_walkStmt body _)
  | .function decl, s => (Advance.introduce s decl.name).trans (advance_walkFunction _ decl _).1
  | .ret keyword none, s => .checkReturn s keyword false
  | .ret keyword (some value), s =>
    (Advance.checkReturn s keyword true).trans (advance_walkExpr value _)
  | .classDecl decl, s => (advance_walkClass decl s).1

theorem advance_walkFunction (context : FunctionContext) : ∀ (decl : FunctionDecl) (s : State),
    Advance s (walkFunction context decl s) ∧ (walkFunction context decl s).scopes = s.scopes
  | ⟨_, params, body⟩, s => by
    have h := ((Advance.foldl_introduce params ({ s with function := context }.enter [])).trans
      (advance_walkStmts body _)).leave
    refine ⟨⟨⟨h.1.noted.bindings, h.1.noted.errors⟩, rfl, h.1.classes, ?_⟩, h.2⟩
    show Grown s.scopes (walkStmts body _).leave.scopes
    rw [h.2]
    exact .refl _

theorem advance_walkClass : ∀ (decl : ClassDecl) (s : State),
    Advance s (walkClass decl s) ∧
      (walkClass decl s).scopes = (s.introduce decl.name).scopes
  | ⟨name, superclass, _, methods⟩, s => by
    have h := advance_walkMethods methods (enterClass name superclass s)
    have hleave := leaveClass_spec superclass (scopes_enterClass name superclass s) h.1 h.2
    have hnoted := (noted_enterClass name superclass s).trans hleave.1
    have hfunction := hleave.2.1.trans (enterClass_context name superclass s).2
    refine ⟨⟨⟨hnoted.bindings, hnoted.errors⟩, hfunction, rfl, ?_⟩, hleave.2.2⟩
    show Grown s.scopes (leaveClass superclass _).scopes
    rw [hleave.2.2]
    exact (Advance.introduce s name).scopes

theorem advance_walkMethods : ∀ (ds : List FunctionDecl) (s : State),
    Advance s (walkMethods ds s) ∧ (walkMethods ds s).scopes = s.scopes
  | [], s => ⟨.refl s, rfl⟩
  | d :: ds, s => by
    have hfirst := advance_walkFunction (methodContext d.name) d s
    have hrest := advance_walkMethods ds (walkFunction (methodContext d.name) d s)
    exact ⟨hfirst.1.trans hrest.1, hrest.2.trans hfirst.2⟩

theorem advance_walkStmts : ∀ (ss : List Stmt) (s : State), Advance s (walkStmts ss s)
  | [], s => .refl s
  | st :: ss, s => (advance_walkStmt st s).trans (advance_walkStmts ss _)

end

theorem walkStmts_append (ss ts : List Stmt) (s : State) :
    walkStmts (ss ++ ts) s = walkStmts ts (walkStmts ss s) := by
  induction ss generalizing s with
  | nil => rfl
  | cons st ss ih => exact ih (walkStmt st s)

/-- **The scopes after a proper statement**: as before, or with the name it declares. -/
theorem scopes_walkStmt (st : Stmt) (hst : st.Proper) (s : State) :
    (walkStmt st s).scopes =
      match st.declared? with
      | none => s.scopes
      | some name => (s.introduce name).scopes := by
  match st with
  | .expr e => exact scopes_walkExpr e s
  | .declare name none => rfl
  | .declare name (some init) =>
    simp only [walkStmt, Stmt.declared?, introduce, State.define, State.add, scopes_walkExpr]
    split
    · exact scopes_walkExpr init _
    · rfl
  | .block body => exact (advance_walkStmts body (s.enter [])).leave.2
  | .branch cond thenDo none =>
    simp only [walkStmt, Stmt.declared?]
    rw [scopes_walkStmt thenDo hst.2.1, hst.2.2]
    exact scopes_walkExpr cond s
  | .branch cond thenDo (some elseDo) =>
    simp only [walkStmt, Stmt.declared?]
    rw [scopes_walkStmt elseDo hst.2.2.1, hst.2.2.2]
    simp only
    rw [scopes_walkStmt thenDo hst.2.1.1, hst.2.1.2]
    exact scopes_walkExpr cond s
  | .loop cond body =>
    simp only [walkStmt, Stmt.declared?]
    rw [scopes_walkStmt body hst.2.1, hst.2.2]
    exact scopes_walkExpr cond s
  | .function ⟨name, params, body⟩ => exact (advance_walkFunction .function _ _).2
  | .ret keyword none => exact scopes_checkReturn s keyword false
  | .ret keyword (some value) =>
    exact (scopes_walkExpr value _).trans (scopes_checkReturn s keyword true)
  | .classDecl ⟨name, superclass, interface, methods⟩ => exact (advance_walkClass _ s).2

/-! ## Bindings -/

/-- The bindings noted between `s` and `s'` are of references among `rs`, each at most as often. -/
def Binds (rs : List RefId) (s s' : State) : Prop :=
  ∃ bs : List Binding, s'.bindings.toList = s.bindings.toList ++ bs ∧
    ∀ r, (bs.map (·.ref)).count r ≤ rs.count r

namespace Binds

variable {s t u : State} {rs rs' : List RefId}

theorem same (rs : List RefId) (h : t.bindings = s.bindings) : Binds rs s t :=
  ⟨[], by rw [h, List.append_nil], fun _ => Nat.zero_le _⟩

theorem trans (h : Binds rs s t) (h' : Binds rs' t u) : Binds (rs ++ rs') s u := by
  obtain ⟨bs, hbs, hc⟩ := h
  obtain ⟨bs', hbs', hc'⟩ := h'
  refine ⟨bs ++ bs', by rw [hbs', hbs, List.append_assoc], fun r => ?_⟩
  simp only [List.map_append, List.count_append]
  have := hc r
  have := hc' r
  omega

theorem congr (h : Binds rs s t) (hc : ∀ r, rs.count r = rs'.count r) : Binds rs' s t := by
  obtain ⟨bs, hbs, hbs'⟩ := h
  exact ⟨bs, hbs, fun r => (hbs' r).trans (hc r).le⟩

theorem of_eq (h : Binds rs s t) (hs : u.bindings = t.bindings) : Binds rs s u := by
  obtain ⟨bs, hbs, hc⟩ := h
  exact ⟨bs, by rw [hs, hbs], hc⟩

theorem from_eq (h : Binds rs s t) (hs : s.bindings = u.bindings) : Binds rs u t := by
  obtain ⟨bs, hbs, hc⟩ := h
  exact ⟨bs, by rw [← hs, hbs], hc⟩

theorem bind (h : t.bindings = s.bindings) (ref : RefId) (name : Token) :
    Binds [ref] s (t.bind ref name) :=
  ⟨[⟨ref, name.lexeme, t.distance? name.lexeme⟩], by simp [State.bind, h], fun _ => le_refl _⟩

end Binds

theorem bindings_declare (s : State) (name : Token) : (s.declare name).bindings = s.bindings := by
  unfold State.declare State.add
  split
  · rfl
  · split_ifs <;> rfl

theorem bindings_add (s : State) (name : String) (b : Bool) :
    (s.add name b).bindings = s.bindings := by
  unfold State.add
  split <;> rfl

theorem bindings_introduce (s : State) (name : Token) :
    (s.introduce name).bindings = s.bindings :=
  (bindings_add _ _ _).trans (bindings_declare s name)

theorem bindings_foldl_introduce (params : List Token) (s : State) :
    (params.foldl State.introduce s).bindings = s.bindings := by
  induction params generalizing s with
  | nil => rfl
  | cons p ps ih => exact (ih _).trans (bindings_introduce s p)

theorem bindings_checkSuper (s : State) (t : Token) : (s.checkSuper t).bindings = s.bindings := by
  unfold State.checkSuper
  split <;> rfl

theorem bindings_checkReturn (s : State) (t : Token) (b : Bool) :
    (s.checkReturn t b).bindings = s.bindings := by
  unfold State.checkReturn
  split <;> rfl

mutual

theorem binds_walkExpr : ∀ (e : Expr) (s : State), Binds e.refs s (walkExpr e s)
  | .literal _, s => .same _ rfl
  | .group inner, s => binds_walkExpr inner s
  | .unary _ operand, s => binds_walkExpr operand s
  | .binary left _ right, s => (binds_walkExpr left s).trans (binds_walkExpr right _)
  | .logical left _ right, s => (binds_walkExpr left s).trans (binds_walkExpr right _)
  | .var ref name, s => by
    unfold walkExpr
    exact .bind (by split_ifs <;> rfl) ref name
  | .assign ref name value, s => (binds_walkExpr value s).trans (.bind rfl ref name)
  | .call callee _ args, s => (binds_walkExpr callee s).trans (binds_walkExprs args _)
  | .get object _, s => binds_walkExpr object s
  | .set object _ value, s => by
    refine ((binds_walkExpr value s).trans (binds_walkExpr object _)).congr fun r => ?_
    simp only [Expr.refs, List.count_append]
    omega
  | .this ref keyword, s => by
    unfold walkExpr
    split_ifs
    · exact .same _ rfl
    · exact .bind rfl ref keyword
  | .super ref keyword _, s => .bind (bindings_checkSuper s keyword) ref keyword

theorem binds_walkExprs : ∀ (es : List Expr) (s : State), Binds (Expr.refsAll es) s (walkExprs es s)
  | [], _ => .same _ rfl
  | e :: es, s => (binds_walkExpr e s).trans (binds_walkExprs es _)

end

theorem binds_enterClass (name : Token) (superclass : Option Superclass) (s : State) :
    Binds (superclass.map (·.ref)).toList s (enterClass name superclass s) := by
  have hbase := bindings_introduce { s with classes := .base } name
  cases superclass with
  | none => exact .same _ hbase
  | some parent =>
    refine Binds.of_eq (Binds.bind (?_ : (_ : State).bindings = s.bindings) parent.ref parent.name)
      rfl
    split_ifs <;> exact hbase

mutual

theorem binds_walkStmt : ∀ (st : Stmt) (s : State), Binds st.refs s (walkStmt st s)
  | .expr e, s => binds_walkExpr e s
  | .declare name none, s => .same _ (bindings_introduce s name)
  | .declare name (some init), s =>
    ((binds_walkExpr init _).from_eq (bindings_declare s name)).of_eq (bindings_add _ _ _)
  | .block body, s => binds_walkStmts body (s.enter [])
  | .branch cond thenDo none, s => (binds_walkExpr cond s).trans (binds_walkStmt thenDo _)
  | .branch cond thenDo (some elseDo), s =>
    ((binds_walkExpr cond s).trans (binds_walkStmt thenDo _)).trans (binds_walkStmt elseDo _)
  | .loop cond body, s => (binds_walkExpr cond s).trans (binds_walkStmt body _)
  | .function decl, s => (binds_walkFunction _ decl _).from_eq (bindings_introduce s decl.name)
  | .ret keyword none, s => .same _ (bindings_checkReturn s keyword false)
  | .ret keyword (some value), s =>
    (binds_walkExpr value _).from_eq (bindings_checkReturn s keyword true)
  | .classDecl decl, s => binds_walkClass decl s

theorem binds_walkFunction (context : FunctionContext) : ∀ (decl : FunctionDecl) (s : State),
    Binds decl.refs s (walkFunction context decl s)
  | ⟨_, params, body⟩, _ => (binds_walkStmts body _).from_eq (bindings_foldl_introduce params _)

theorem binds_walkClass : ∀ (decl : ClassDecl) (s : State), Binds decl.refs s (walkClass decl s)
  | ⟨name, superclass, _, methods⟩, s => by
    refine ((binds_enterClass name superclass s).trans (binds_walkMethods methods _)).of_eq ?_
    cases superclass <;> rfl

theorem binds_walkMethods : ∀ (ds : List FunctionDecl) (s : State),
    Binds (FunctionDecl.refsAll ds) s (walkMethods ds s)
  | [], _ => .same _ rfl
  | d :: ds, s => (binds_walkFunction _ d s).trans (binds_walkMethods ds _)

theorem binds_walkStmts : ∀ (ss : List Stmt) (s : State), Binds (Stmt.refsAll ss) s (walkStmts ss s)
  | [], _ => .same _ rfl
  | st :: ss, s => (binds_walkStmt st s).trans (binds_walkStmts ss _)

end

/-- **A program whose references have identities of their own binds each of them once.** -/
theorem fresh_bindings {program : List Stmt} {low high : Nat}
    (h : Fresh low high (Stmt.refsAll program)) :
    Fresh low high ((resolve program).bindings.toList.map (·.ref)) := by
  obtain ⟨bs, hbs, hc⟩ := binds_walkStmts program {}
  have hresolve : (resolve program).bindings.toList = bs := hbs
  rw [hresolve]
  exact h.of_count hc

/-- Only references of the program are bound. -/
theorem ref_mem_refsAll {program : List Stmt} {b : Binding}
    (hb : b ∈ (walkStmts program {}).bindings) : b.ref ∈ Stmt.refsAll program := by
  obtain ⟨bs, hbs, hc⟩ := binds_walkStmts program {}
  have hmem : b.ref ∈ bs.map (·.ref) := by
    rw [← Array.mem_toList_iff, hbs] at hb
    exact List.mem_map_of_mem hb
  exact List.count_pos_iff.mp (Nat.lt_of_lt_of_le (List.count_pos_iff.mpr hmem) (hc b.ref))

end Scriptlet.Scope
