import Scriptlet.Proofs.Scope.Walk
import Scriptlet.Machine
import Mathlib.Logic.Relation

/-!
# The parts of a program as the walk visits them

`Visits program v`: the walk over the program comes to the part `v.code` in the state `v.state`. A
visit also knows, for every open scope, the names that are declared in it anywhere (`v.declared`),
which the state knows only up to this point.

`Step.turn` says once what a step of the walk does to the open scopes: mostly nothing; it may
declare a name, make one readable, open a scope, or open the scopes of a class. The invariants of
`Sound` follow from it.

Results:
* `Visits.sound`: what holds at every visit of a program that has no error.
* `Visits.own_initializer`: where a name is declared and cannot be read.
-/

namespace Scriptlet.Scope

open State

/-! ## Visits -/

/-- The names that statements declare in the scope they stand in. -/
def declaredIn (ss : List Stmt) : List String := ss.filterMap fun st => st.declared?.map (·.lexeme)

/-- A part of a program. -/
inductive Code where
  | expr (e : Expr)
  | exprs (es : List Expr)
  | stmt (st : Stmt)
  | stmts (ss : List Stmt)
  | function (context : FunctionContext) (decl : FunctionDecl)
  | methods (ds : List FunctionDecl)

namespace Code

/-- The walk over a part. -/
def walk : Code → State → State
  | expr e => walkExpr e
  | exprs es => walkExprs es
  | stmt st => walkStmt st
  | stmts ss => walkStmts ss
  | function context decl => walkFunction context decl
  | methods ds => walkMethods ds

def Proper : Code → Prop
  | expr e => e.Proper
  | exprs es => Expr.ProperAll es
  | stmt st => st.Proper
  | stmts ss => Stmt.ProperAll ss
  | function _ decl => decl.Proper
  | methods ds => FunctionDecl.ProperAll ds

/-- The names a part declares in the innermost scope. -/
def pending : Code → List String
  | stmt st => declaredIn [st]
  | stmts ss => declaredIn ss
  | _ => []

def isExpr : Code → Bool
  | expr _ | exprs _ => true
  | _ => false

end Code

/-- A part of a program, the state in which the walk comes to it, and for every open scope all the
names it declares. -/
structure Visit where
  code : Code
  state : State
  declared : List (List String)

/-- The names in the scopes of a class, innermost first. -/
def classNames : Option Superclass → List (List String)
  | none => [["this"]]
  | some _ => [["this"], ["super"]]

/-- The state in which the body of a function is visited. -/
def enterFunction (context : FunctionContext) (params : List Token) (s : State) : State :=
  params.foldl State.introduce ({ s with function := context }.enter [])

/-- **The walk goes from a part to a part of it.** -/
inductive Step : Visit → Visit → Prop
  | group {inner s ns} : Step ⟨.expr (.group inner), s, ns⟩ ⟨.expr inner, s, ns⟩
  | operand {op e s ns} : Step ⟨.expr (.unary op e), s, ns⟩ ⟨.expr e, s, ns⟩
  | left {l op r s ns} : Step ⟨.expr (.binary l op r), s, ns⟩ ⟨.expr l, s, ns⟩
  | right {l op r s ns} : Step ⟨.expr (.binary l op r), s, ns⟩ ⟨.expr r, walkExpr l s, ns⟩
  | leftLogical {l op r s ns} : Step ⟨.expr (.logical l op r), s, ns⟩ ⟨.expr l, s, ns⟩
  | rightLogical {l op r s ns} :
    Step ⟨.expr (.logical l op r), s, ns⟩ ⟨.expr r, walkExpr l s, ns⟩
  | assigned {ref name e s ns} : Step ⟨.expr (.assign ref name e), s, ns⟩ ⟨.expr e, s, ns⟩
  | callee {e paren args s ns} : Step ⟨.expr (.call e paren args), s, ns⟩ ⟨.expr e, s, ns⟩
  | arguments {e paren args s ns} :
    Step ⟨.expr (.call e paren args), s, ns⟩ ⟨.exprs args, walkExpr e s, ns⟩
  | object {e name s ns} : Step ⟨.expr (.get e name), s, ns⟩ ⟨.expr e, s, ns⟩
  | setValue {o name e s ns} : Step ⟨.expr (.set o name e), s, ns⟩ ⟨.expr e, s, ns⟩
  | setObject {o name e s ns} : Step ⟨.expr (.set o name e), s, ns⟩ ⟨.expr o, walkExpr e s, ns⟩
  | firstExpr {e es s ns} : Step ⟨.exprs (e :: es), s, ns⟩ ⟨.expr e, s, ns⟩
  | otherExprs {e es s ns} : Step ⟨.exprs (e :: es), s, ns⟩ ⟨.exprs es, walkExpr e s, ns⟩
  | evaluated {e s ns} : Step ⟨.stmt (.expr e), s, ns⟩ ⟨.expr e, s, ns⟩
  | init {name e s ns} :
    Step ⟨.stmt (.declare name (some e)), s, ns⟩ ⟨.expr e, s.declare name, ns⟩
  | block {body s ns} :
    Step ⟨.stmt (.block body), s, ns⟩ ⟨.stmts body, s.enter [], declaredIn body :: ns⟩
  | condition {c t o s ns} : Step ⟨.stmt (.branch c t o), s, ns⟩ ⟨.expr c, s, ns⟩
  | thenDo {c t o s ns} : Step ⟨.stmt (.branch c t o), s, ns⟩ ⟨.stmt t, walkExpr c s, ns⟩
  | elseDo {c t e s ns} :
    Step ⟨.stmt (.branch c t (some e)), s, ns⟩ ⟨.stmt e, walkStmt t (walkExpr c s), ns⟩
  | loopCondition {c b s ns} : Step ⟨.stmt (.loop c b), s, ns⟩ ⟨.expr c, s, ns⟩
  | loopBody {c b s ns} : Step ⟨.stmt (.loop c b), s, ns⟩ ⟨.stmt b, walkExpr c s, ns⟩
  | function {d : FunctionDecl} {s ns} :
    Step ⟨.stmt (.function d), s, ns⟩ ⟨.function .function d, s.introduce d.name, ns⟩
  | returned {k e s ns} :
    Step ⟨.stmt (.ret k (some e)), s, ns⟩ ⟨.expr e, s.checkReturn k true, ns⟩
  | classMethods {name superclass interface ms s ns} :
    Step ⟨.stmt (.classDecl ⟨name, superclass, interface, ms⟩), s, ns⟩
      ⟨.methods ms, enterClass name superclass s, classNames superclass ++ ns⟩
  | body {context name params body s ns} :
    Step ⟨.function context ⟨name, params, body⟩, s, ns⟩
      ⟨.stmts body, enterFunction context params s,
        (params.map (·.lexeme) ++ declaredIn body) :: ns⟩
  | firstMethod {d ds s ns} :
    Step ⟨.methods (d :: ds), s, ns⟩ ⟨.function (methodContext d.name) d, s, ns⟩
  | otherMethods {d ds s ns} :
    Step ⟨.methods (d :: ds), s, ns⟩
      ⟨.methods ds, walkFunction (methodContext d.name) d s, ns⟩
  | firstStmt {st ss s ns} : Step ⟨.stmts (st :: ss), s, ns⟩ ⟨.stmt st, s, ns⟩
  | otherStmts {st ss s ns} : Step ⟨.stmts (st :: ss), s, ns⟩ ⟨.stmts ss, walkStmt st s, ns⟩

/-- The walk over a program comes to this part. -/
def Visits (program : List Stmt) (v : Visit) : Prop :=
  Relation.ReflTransGen Step ⟨.stmts program, {}, []⟩ v

/-! ## What is noted -/

/-- No error is noted, and the distances of all bindings are known. -/
structure Clean (D : Distances) (s : State) : Prop where
  errors : s.errors = #[]
  bindings : ∀ b ∈ s.bindings, D[b.ref]? = b.distance

theorem Noted.clean {D : Distances} {s s' : State} (h : Noted s s') (hs : Clean D s') :
    Clean D s := by
  constructor
  · have := h.errors
    rw [hs.errors] at this
    exact Array.toList_eq_nil_iff.mp (List.prefix_nil.mp this)
  · intro b hb
    exact hs.bindings b (Array.mem_toList_iff.mp (h.bindings.subset (Array.mem_toList_iff.mpr hb)))

/-- What is noted in a part is noted in the whole. -/
theorem Step.noted {v w : Visit} (h : Step v w) :
    Noted (w.code.walk w.state) (v.code.walk v.state) := by
  cases h with
  | left => exact (advance_walkExpr _ _).noted
  | leftLogical => exact (advance_walkExpr _ _).noted
  | assigned => exact (Advance.bind _ _ _).noted
  | callee => exact (advance_walkExprs _ _).noted
  | setValue => exact (advance_walkExpr _ _).noted
  | firstExpr => exact (advance_walkExprs _ _).noted
  | init => exact (Advance.add _ _ _).noted
  | block => exact ⟨List.prefix_refl _, List.prefix_refl _⟩
  | @condition c t o s ns =>
    cases o with
    | none => exact (advance_walkStmt _ _).noted
    | some e => exact ((advance_walkStmt t _).trans (advance_walkStmt e _)).noted
  | @thenDo c t o s ns =>
    cases o with
    | none => exact .refl _
    | some e => exact (advance_walkStmt e _).noted
  | loopCondition => exact (advance_walkStmt _ _).noted
  | @classMethods name superclass interface ms s ns =>
    cases superclass <;> exact ⟨List.prefix_refl _, List.prefix_refl _⟩
  | body => exact ⟨List.prefix_refl _, List.prefix_refl _⟩
  | firstMethod => exact (advance_walkMethods _ _).1.noted
  | firstStmt => exact (advance_walkStmts _ _).noted
  | _ => exact .refl _

/-! ## Open scopes -/

/-- Every name of the scope can be read. -/
def Readable (scope : Names) : Prop := ∀ x, scope.lookup x ≠ some false

theorem readable_nil : Readable [] := fun _ => by simp

theorem lookup_cons {β : Type} (y : String) (b : β) (l : List (String × β)) (x : String) :
    ((y, b) :: l).lookup x = if x = y then some b else l.lookup x := by
  by_cases hx : x = y
  · simp [hx]
  · have hne : (x == y) = false := beq_eq_false_iff_ne.mpr hx
    simp [List.lookup_cons, hne, hx]

theorem readable_singleton (x : String) : Readable [(x, true)] := by
  intro y
  rw [lookup_cons]
  split_ifs <;> simp

/-- **What `introduce` does**: nothing outside all scopes, and else the name can be read and all
other names are as before. -/
theorem introduce_cases (s : State) (name : Token) :
    (s.scopes = [] ∧ (s.introduce name).scopes = []) ∨
      ∃ scope scope' rest, s.scopes = scope :: rest ∧ (s.introduce name).scopes = scope' :: rest ∧
        ∀ x, scope'.lookup x = if x = name.lexeme then some true else scope.lookup x := by
  cases hs : s.scopes with
  | nil => exact .inl ⟨rfl, by simp [introduce, State.declare, State.define, State.add, hs]⟩
  | cons scope rest =>
    right
    by_cases hdeclared : (scope.lookup name.lexeme).isSome = true
    · refine ⟨scope, (name.lexeme, true) :: scope, rest, rfl, ?_, fun x => ?_⟩
      · simp [introduce, State.declare, State.define, State.add, hs, hdeclared, State.note]
      · rw [lookup_cons]
    · refine ⟨scope, (name.lexeme, true) :: (name.lexeme, false) :: scope, rest, rfl, ?_,
        fun x => ?_⟩
      · simp [introduce, State.declare, State.define, State.add, hs, hdeclared]
      · rw [lookup_cons, lookup_cons]
        by_cases hx : x = name.lexeme <;> simp [hx]

/-- **What `declare` does**: a name that is new in the innermost scope cannot be read yet, and all
other names are as before. -/
theorem declare_cases (s : State) (name : Token) :
    (s.scopes = [] ∧ (s.declare name).scopes = []) ∨
      ∃ scope scope' rest, s.scopes = scope :: rest ∧ (s.declare name).scopes = scope' :: rest ∧
        (∀ x, x ≠ name.lexeme → scope'.lookup x = scope.lookup x) ∧
        (scope'.lookup name.lexeme).isSome = true ∧
        ∀ x, scope'.lookup x = some true → scope.lookup x = some true := by
  cases hs : s.scopes with
  | nil => exact .inl ⟨rfl, by simp [State.declare, hs]⟩
  | cons scope rest =>
    right
    by_cases hdeclared : (scope.lookup name.lexeme).isSome = true
    · exact ⟨scope, scope, rest, rfl, by simp [State.declare, hs, hdeclared, State.note],
        fun _ _ => rfl, hdeclared, fun _ hx => hx⟩
    · refine ⟨scope, (name.lexeme, false) :: scope, rest, rfl,
        by simp [State.declare, State.add, hs, hdeclared], fun x hx => ?_, by simp, fun x hx => ?_⟩
      · rw [lookup_cons, if_neg hx]
      · rw [lookup_cons] at hx
        split_ifs at hx
        · cases hx
        · exact hx

/-- How far out a name is declared. -/
def distanceIn (scopes : List Names) (x : String) : Option Nat :=
  scopes.findIdx? fun scope => (scope.lookup x).isSome

theorem distanceIn_cons (scope : Names) (rest : List Names) (x : String) :
    distanceIn (scope :: rest) x =
      if (scope.lookup x).isSome then some 0 else (distanceIn rest x).map (· + 1) := by
  unfold distanceIn
  rw [List.findIdx?_cons]

/-- What is added to the innermost scope under other names does not matter to a name. -/
theorem distanceIn_congr {scope scope' : Names} (rest : List Names) {x : String}
    (h : scope'.lookup x = scope.lookup x) :
    distanceIn (scope' :: rest) x = distanceIn (scope :: rest) x := by
  rw [distanceIn_cons, distanceIn_cons, h]

theorem distanceIn_introduce {s : State} {name : Token} {x : String} (hx : x ≠ name.lexeme) :
    distanceIn (s.introduce name).scopes x = distanceIn s.scopes x := by
  rcases introduce_cases s name with ⟨h, h'⟩ | ⟨scope, scope', rest, h, h', hlookup⟩
  · rw [h, h']
  · rw [h, h']
    exact distanceIn_congr rest (by rw [hlookup, if_neg hx])

theorem distanceIn_declare {s : State} {name : Token} {x : String} (hx : x ≠ name.lexeme) :
    distanceIn (s.declare name).scopes x = distanceIn s.scopes x := by
  rcases declare_cases s name with ⟨h, h'⟩ | ⟨scope, scope', rest, h, h', hlookup, -⟩
  · rw [h, h']
  · rw [h, h', distanceIn_congr rest (hlookup x hx)]

/-- A scope in which all names can be read and none is that of a keyword. -/
structure Plain (scope : Names) : Prop where
  readable : Readable scope
  this : scope.lookup "this" = none
  super : scope.lookup "super" = none

theorem plain_nil : Plain [] := ⟨readable_nil, rfl, rfl⟩

/-- The parameters of a function make a plain scope, which declares them and what it did before. -/
theorem foldl_introduce_scopes {params : List Token} (hp : ∀ p ∈ params, p.IsName) {s : State}
    {scope : Names} {rest : List Names} (hs : s.scopes = scope :: rest) (hplain : Plain scope) :
    ∃ scope', (params.foldl State.introduce s).scopes = scope' :: rest ∧ Plain scope' ∧
      ∀ x, (scope'.lookup x).isSome = true ↔
        x ∈ params.map (·.lexeme) ∨ (scope.lookup x).isSome = true := by
  induction params generalizing s scope with
  | nil => exact ⟨scope, hs, hplain, fun x => by simp⟩
  | cons p ps ih =>
    obtain ⟨hpname, hps⟩ := List.forall_mem_cons.mp hp
    rcases introduce_cases s p with ⟨h, -⟩ | ⟨scope₀, scope₁, rest', h, h', hlookup⟩
    · rw [hs] at h; cases h
    rw [hs] at h
    obtain ⟨rfl, rfl⟩ := List.cons.inj h
    have hplain₁ : Plain scope₁ := by
      refine ⟨fun x => ?_, ?_, ?_⟩
      · rw [hlookup]
        split_ifs
        · simp
        · exact hplain.readable x
      · rw [hlookup, if_neg hpname.ne_this.symm, hplain.this]
      · rw [hlookup, if_neg hpname.ne_super.symm, hplain.super]
    obtain ⟨scope', hscopes, hplain', hmem⟩ := ih hps h' hplain₁
    refine ⟨scope', hscopes, hplain', fun x => ?_⟩
    rw [hmem, hlookup, List.map_cons, List.mem_cons]
    by_cases hx : x = p.lexeme
    · simp [hx]
    · simp [hx]

/-- **The body of a function is visited in the scopes of the function, with one for the
parameters.** -/
theorem enterFunction_scopes {params : List Token} (hp : ∀ p ∈ params, p.IsName)
    (context : FunctionContext) (s : State) :
    ∃ scope, (enterFunction context params s).scopes = scope :: s.scopes ∧ Plain scope ∧
      ∀ x, (scope.lookup x).isSome = true ↔ x ∈ params.map (·.lexeme) := by
  obtain ⟨scope, hscopes, hplain, hmem⟩ :=
    foldl_introduce_scopes hp (s := { s with function := context }.enter []) rfl plain_nil
  exact ⟨scope, hscopes, hplain, fun x => by simpa using hmem x⟩

/-! ## What a step does to the open scopes -/

/-- The same scopes are open and nothing has been declared. -/
structure Stays (v w : Visit) : Prop where
  scopes : w.state.scopes = v.state.scopes
  classes : w.state.classes = v.state.classes
  declared : w.declared = v.declared
  pending : w.code.pending ⊆ v.code.pending
  expr : w.code.isExpr = false → v.code.isExpr = false

/-- **What a step of the walk does to the open scopes.** -/
inductive Turn (v w : Visit) : Prop
  | stays (h : Stays v w)
  /-- A name is declared and cannot be read in its own initializer. -/
  | declares (name : Token) (e : Expr) (hname : name.IsName)
      (hv : v.code = .stmt (.declare name (some e))) (hw : w.code = .expr e)
      (state : w.state = v.state.declare name) (declared : w.declared = v.declared)
  /-- A name is declared and can be read. -/
  | introduces (name : Token) (hname : name.IsName) (hv : v.code.isExpr = false)
      (hmem : name.lexeme ∈ v.code.pending)
      (scopes : w.state.scopes = (v.state.introduce name).scopes)
      (classes : w.state.classes = v.state.classes) (declared : w.declared = v.declared)
      (pending : w.code.pending ⊆ v.code.pending)
  /-- A scope is opened, for a block or a function. -/
  | opens (scope : Names) (names : List String) (hplain : Plain scope)
      (hnames : ∀ x, (scope.lookup x).isSome = true → x ∈ names) (hv : v.code.isExpr = false)
      (scopes : w.state.scopes = scope :: v.state.scopes)
      (classes : w.state.classes = v.state.classes) (declared : w.declared = names :: v.declared)
      (pending : w.code.pending ⊆ names)
  /-- The scopes of a class are opened. -/
  | opensClass (name : Token) (superclass : Option Superclass) (hname : name.IsName)
      (hv : v.code.isExpr = false) (hmem : name.lexeme ∈ v.code.pending)
      (scopes : w.state.scopes = classScopes superclass ++ (v.state.introduce name).scopes)
      (classes : w.state.classes = classContext superclass)
      (declared : w.declared = classNames superclass ++ v.declared) (pending : w.code.pending = [])

theorem declaredIn_cons (st : Stmt) (ss : List Stmt) :
    declaredIn (st :: ss) = declaredIn [st] ++ declaredIn ss := by
  simp only [declaredIn, ← List.filterMap_append, List.singleton_append]

theorem declaredIn_none {st : Stmt} (h : st.declared? = none) : declaredIn [st] = [] := by
  simp [declaredIn, h]

theorem declaredIn_some {st : Stmt} {name : Token} (h : st.declared? = some name) :
    declaredIn [st] = [name.lexeme] := by
  simp [declaredIn, h]

theorem Stmt.Proper.isName {st : Stmt} (h : st.Proper) {name : Token}
    (hname : st.declared? = some name) : name.IsName := by
  match st with
  | .declare _ none => cases hname; exact h
  | .declare _ (some _) => cases hname; exact h.1
  | .function ⟨_, _, _⟩ => cases hname; exact h.1
  | .classDecl ⟨_, _, _, _⟩ => cases hname; exact h.1

theorem Step.proper {v w : Visit} (h : Step v w) (hv : v.code.Proper) : w.code.Proper := by
  cases h with
  | group => exact hv
  | operand => exact hv.2
  | left => exact hv.2.1
  | right => exact hv.2.2
  | leftLogical => exact hv.1
  | rightLogical => exact hv.2
  | assigned => exact hv.2
  | callee => exact hv.1
  | arguments => exact hv.2
  | object => exact hv.1
  | setValue => exact hv.2.2
  | setObject => exact hv.1
  | firstExpr => exact hv.1
  | otherExprs => exact hv.2
  | evaluated => exact hv
  | init => exact hv.2
  | block => exact hv
  | @condition c t o s ns => cases o <;> exact hv.1
  | @thenDo c t o s ns =>
    cases o with
    | none => exact hv.2.1
    | some e => exact hv.2.1.1
  | elseDo => exact hv.2.2.1
  | loopCondition => exact hv.1
  | loopBody => exact hv.2.1
  | function => exact hv
  | returned => exact hv
  | classMethods => exact hv.2.2
  | body => exact hv.2.2
  | firstMethod => exact hv.1
  | otherMethods => exact hv.2
  | firstStmt => exact hv.1
  | otherStmts => exact hv.2

theorem Step.turn {v w : Visit} (h : Step v w) (hv : v.code.Proper) : Turn v w := by
  cases h with
  | @init name e s ns =>
    exact .declares name e hv.1 rfl rfl rfl rfl
  | @block body s ns =>
    exact .opens [] (declaredIn body) plain_nil (by simp) rfl rfl rfl rfl (List.Subset.refl _)
  | @thenDo c t o s ns =>
    have ht : t.declared? = none := by
      cases o with
      | none => exact hv.2.2
      | some e => exact hv.2.1.2
    refine .stays ⟨scopes_walkExpr c s, (advance_walkExpr c s).classes, rfl, ?_, fun _ => rfl⟩
    simp [Code.pending, declaredIn_none ht]
  | @elseDo c t e s ns =>
    refine .stays ⟨?_, ?_, rfl, ?_, fun _ => rfl⟩
    · simp only
      rw [scopes_walkStmt t hv.2.1.1, hv.2.1.2]
      exact scopes_walkExpr c s
    · exact ((advance_walkExpr c s).trans (advance_walkStmt t _)).classes
    · simp [Code.pending, declaredIn_none hv.2.2.2]
  | @loopBody c b s ns =>
    refine .stays ⟨scopes_walkExpr c s, (advance_walkExpr c s).classes, rfl, ?_, fun _ => rfl⟩
    simp [Code.pending, declaredIn_none hv.2.2]
  | @function d s ns =>
    obtain ⟨name, params, body⟩ := d
    exact .introduces name hv.1 rfl (by simp [Code.pending, declaredIn, Stmt.declared?]) rfl
      (Advance.introduce s name).classes rfl (by simp [Code.pending])
  | @classMethods name superclass interface ms s ns =>
    exact .opensClass name superclass hv.1 rfl (by simp [Code.pending, declaredIn, Stmt.declared?])
      (scopes_enterClass name superclass s) (enterClass_context name superclass s).1 rfl rfl
  | @body context name params body s ns =>
    obtain ⟨scope, hscopes, hplain, hmem⟩ := enterFunction_scopes hv.2.1 context s
    have hclasses : (enterFunction context params s).classes = s.classes :=
      (Advance.foldl_introduce params _).classes
    refine .opens scope _ hplain (fun x hx => ?_) rfl hscopes hclasses rfl
      (List.subset_append_right _ _)
    exact List.mem_append_left _ ((hmem x).mp hx)
  | @otherStmts st ss s ns =>
    have hscopes := scopes_walkStmt st hv.1 s
    have hpending : declaredIn ss ⊆ declaredIn (st :: ss) := by
      rw [declaredIn_cons]
      exact List.subset_append_right _ _
    cases hname : st.declared? with
    | none =>
      rw [hname] at hscopes
      exact .stays ⟨hscopes, (advance_walkStmt st s).classes, rfl, hpending, fun _ => rfl⟩
    | some name =>
      rw [hname] at hscopes
      refine .introduces name (Stmt.Proper.isName hv.1 hname) rfl ?_ hscopes
        (advance_walkStmt st s).classes rfl hpending
      simp only [Code.pending]
      rw [declaredIn_cons, declaredIn_some hname]
      exact List.mem_cons_self
  | @firstStmt st ss s ns =>
    refine .stays ⟨rfl, rfl, rfl, ?_, fun _ => rfl⟩
    simp only [Code.pending]
    rw [declaredIn_cons st ss]
    exact List.subset_append_left _ _
  | @otherMethods d ds s ns =>
    have h := advance_walkFunction (methodContext d.name) d s
    exact .stays ⟨h.2, h.1.classes, rfl, List.Subset.refl _, fun _ => rfl⟩
  | @returned k e s ns =>
    exact .stays ⟨scopes_checkReturn s k true, (Advance.checkReturn s k true).classes, rfl,
      List.nil_subset _, fun _ => rfl⟩
  | @condition c t o s ns => exact .stays ⟨rfl, rfl, rfl, List.nil_subset _, fun _ => rfl⟩
  | _ =>
    exact .stays ⟨by simp [scopes_walkExpr], by simp [(advance_walkExpr _ _).classes], rfl,
      List.nil_subset _, by simp [Code.isExpr]⟩

/-- A step that opens no scope leaves `this` where it is, and the class that the walk is in. -/
theorem Step.same_class {v w : Visit} (h : Step v w) (hv : v.code.Proper)
    (hdeclared : w.declared = v.declared) :
    distanceIn w.state.scopes "this" = distanceIn v.state.scopes "this" ∧
      w.state.scopes.length = v.state.scopes.length ∧ w.state.classes = v.state.classes := by
  have hlength {a b : List Names} (hgrown : Grown a b) : b.length = a.length := by
    cases hgrown <;> rfl
  cases h.turn hv with
  | stays hs =>
    rw [hs.scopes]
    exact ⟨rfl, rfl, hs.classes⟩
  | declares name e hname hcode hcode' state declared =>
    rw [state]
    exact ⟨distanceIn_declare hname.ne_this.symm, hlength (Advance.declare _ _).scopes,
      (Advance.declare _ _).classes⟩
  | introduces name hname hcode hmem scopes classes declared pending =>
    rw [scopes]
    exact ⟨distanceIn_introduce hname.ne_this.symm, hlength (Advance.introduce _ _).scopes, classes⟩
  | opens scope names hplain hnames hcode scopes classes declared pending =>
    rw [declared] at hdeclared
    exact absurd (congrArg List.length hdeclared) (by simp)
  | opensClass name superclass hname hcode hmem scopes classes declared pending =>
    rw [declared] at hdeclared
    have hlonger := congrArg List.length hdeclared
    cases superclass <;> simp only [classNames, List.length_append, List.length_cons,
      List.length_nil] at hlonger <;> omega

/-! ## What holds at every visit -/

/-- In a class the nearest `this` is its own, and in a derived one `super` is declared just around
it. -/
def Receives (classes : ClassContext) (scopes : List Names) : Prop :=
  classes ≠ .none → ∃ k, distanceIn scopes "this" = some k ∧
    (classes = .derived → distanceIn scopes "super" = some (k + 1))

theorem Receives.congr {c : ClassContext} {scopes scopes' : List Names} (h : Receives c scopes)
    (hthis : distanceIn scopes' "this" = distanceIn scopes "this")
    (hsuper : distanceIn scopes' "super" = distanceIn scopes "super") : Receives c scopes' := by
  intro hc
  rw [hthis, hsuper]
  exact h hc

theorem Receives.push {c : ClassContext} {scopes : List Names} (h : Receives c scopes)
    {scope : Names} (hplain : Plain scope) : Receives c (scope :: scopes) := by
  intro hc
  obtain ⟨k, hthis, hsuper⟩ := h hc
  refine ⟨k + 1, ?_, fun hd => ?_⟩
  · simp [distanceIn_cons, hplain.this, hthis]
  · simp [distanceIn_cons, hplain.super, hsuper hd]

theorem receives_class (superclass : Option Superclass) (scopes : List Names) :
    Receives (classContext superclass) (classScopes superclass ++ scopes) := by
  intro _
  refine ⟨0, ?_, fun hd => ?_⟩
  · cases superclass <;> simp [classScopes, distanceIn_cons]
  · cases superclass with
    | none => cases hd
    | some parent => simp [classScopes, distanceIn_cons]

/-- **What holds when the walk comes to a part of a program without errors.** -/
structure Sound (D : Distances) (v : Visit) : Prop where
  clean : Clean D (v.code.walk v.state)
  proper : v.code.Proper
  /-- What a scope declares up to here is among what it declares at all. -/
  names : List.Forall₂ (fun scope names => ∀ x, (scope.lookup x).isSome = true → x ∈ names)
    v.state.scopes v.declared
  /-- What the part declares is among the names of the innermost scope. -/
  pending : ∀ x ∈ v.code.pending, ∀ names ∈ v.declared.head?, x ∈ names
  /-- Only in an expression can there be a name that is declared and not readable. -/
  inner : ∀ scope ∈ v.state.scopes.head?, ∀ x, scope.lookup x = some false →
    v.code.isExpr = true ∧ x ≠ "this" ∧ x ≠ "super"
  outer : ∀ scope ∈ v.state.scopes.tail, Readable scope
  receives : Receives v.state.classes v.state.scopes

namespace Sound

variable {D : Distances} {v w : Visit}

theorem readable (h : Sound D v) (hv : v.code.isExpr = false) :
    ∀ scope ∈ v.state.scopes, Readable scope := by
  intro scope hmem x hx
  cases hs : v.state.scopes with
  | nil => rw [hs] at hmem; cases hmem
  | cons inner rest =>
    rw [hs] at hmem
    rcases List.mem_cons.mp hmem with rfl | hmem
    · have := (h.inner scope (by rw [hs]; rfl) x hx).1
      rw [hv] at this
      cases this
    · exact h.outer scope (by rw [hs]; exact hmem) x hx

theorem readable_introduce (h : Sound D v) (hv : v.code.isExpr = false) (name : Token) :
    ∀ scope ∈ (v.state.introduce name).scopes, Readable scope := by
  intro scope hmem x
  rcases introduce_cases v.state name with ⟨-, h'⟩ | ⟨scope₀, scope', rest, hs, h', hlookup⟩
  · rw [h'] at hmem; cases hmem
  · rw [h'] at hmem
    rcases List.mem_cons.mp hmem with rfl | hmem
    · rw [hlookup]
      split_ifs
      · simp
      · exact h.readable hv scope₀ (by rw [hs]; exact List.mem_cons_self) x
    · exact h.readable hv scope (by rw [hs]; exact List.mem_cons_of_mem _ hmem) x

theorem names_introduce (h : Sound D v) {name : Token} (hmem : name.lexeme ∈ v.code.pending) :
    List.Forall₂ (fun scope names => ∀ x, (scope.lookup x).isSome = true → x ∈ names)
      (v.state.introduce name).scopes v.declared := by
  have hnames := h.names
  have hpending := h.pending name.lexeme hmem
  rcases introduce_cases v.state name with ⟨hs, h'⟩ | ⟨scope, scope', rest, hs, h', hlookup⟩
  · rw [h', ← hs]
    exact hnames
  · rw [hs] at hnames
    rw [h']
    obtain ⟨names, declared, hhead, hrest, hd⟩ := List.forall₂_cons_left_iff.mp hnames
    rw [hd] at hpending ⊢
    refine .cons (fun x hx => ?_) hrest
    rw [hlookup] at hx
    split_ifs at hx with hxn
    · rw [hxn]
      exact hpending names rfl
    · exact hhead x hx

theorem names_declare (h : Sound D v) {name : Token} (hmem : name.lexeme ∈ v.code.pending) :
    List.Forall₂ (fun scope names => ∀ x, (scope.lookup x).isSome = true → x ∈ names)
      (v.state.declare name).scopes v.declared := by
  have hnames := h.names
  have hpending := h.pending name.lexeme hmem
  rcases declare_cases v.state name with ⟨hs, h'⟩ | ⟨scope, scope', rest, hs, h', hlookup, -⟩
  · rw [h', ← hs]
    exact hnames
  · rw [hs] at hnames
    rw [h']
    obtain ⟨names, declared, hhead, hrest, hd⟩ := List.forall₂_cons_left_iff.mp hnames
    rw [hd] at hpending ⊢
    refine .cons (fun x hx => ?_) hrest
    by_cases hxn : x = name.lexeme
    · rw [hxn]
      exact hpending names rfl
    · rw [hlookup x hxn] at hx
      exact hhead x hx

/-- If all scopes are readable, so is the innermost and so are the others. -/
theorem inner_of_readable (h : ∀ scope ∈ w.state.scopes, Readable scope) :
    ∀ scope ∈ w.state.scopes.head?, ∀ x, scope.lookup x = some false →
      w.code.isExpr = true ∧ x ≠ "this" ∧ x ≠ "super" :=
  fun scope hs x hx => absurd hx (h scope (List.mem_of_mem_head? hs) x)

/-- **The invariants of a visit carry over to the next one.** -/
theorem step (h : Sound D v) (hstep : Step v w) : Sound D w := by
  have hclean := hstep.noted.clean h.clean
  have hproper := hstep.proper h.proper
  cases hstep.turn h.proper with
  | stays hs =>
    refine ⟨hclean, hproper, by rw [hs.declared, hs.scopes]; exact h.names, ?_, ?_, ?_, ?_⟩
    · rw [hs.declared]
      exact fun x hx => h.pending x (hs.pending hx)
    · rw [hs.scopes]
      intro scope hmem x hx
      obtain ⟨hv, hne⟩ := h.inner scope hmem x hx
      refine ⟨?_, hne⟩
      cases hw : w.code.isExpr with
      | true => rfl
      | false => rw [hs.expr hw] at hv; cases hv
    · rw [hs.scopes]
      exact h.outer
    · rw [hs.scopes, hs.classes]
      exact h.receives
  | declares name e hname hv hw state declared =>
    have hexpr : v.code.isExpr = false := by rw [hv]; rfl
    have hgrown := (Advance.declare v.state name).scopes
    refine ⟨hclean, hproper, ?_, ?_, ?_, ?_, ?_⟩
    · rw [state, declared]
      refine h.names_declare ?_
      rw [hv]
      exact List.mem_singleton_self _
    · rw [hw]
      exact List.forall_mem_nil _
    · rw [state, hw]
      intro scope hmem x hx
      rcases declare_cases v.state name with ⟨-, h'⟩ | ⟨scope₀, scope', rest, hs, h', hlookup, -⟩
      · rw [h'] at hmem; cases hmem
      rw [h'] at hmem
      cases hmem
      by_cases hxn : x = name.lexeme
      · rw [hxn]
        exact ⟨rfl, hname.ne_this, hname.ne_super⟩
      · rw [hlookup x hxn] at hx
        exact absurd hx (h.readable hexpr scope₀ (by rw [hs]; exact List.mem_cons_self) x)
    · rw [state, hgrown.tail]
      exact h.outer
    · rw [state, (Advance.declare v.state name).classes]
      exact h.receives.congr (distanceIn_declare hname.ne_this.symm)
        (distanceIn_declare hname.ne_super.symm)
  | introduces name hname hv hmem scopes classes declared pending =>
    have hread : ∀ scope ∈ w.state.scopes, Readable scope := by
      rw [scopes]
      exact h.readable_introduce hv name
    refine ⟨hclean, hproper, ?_, ?_, inner_of_readable hread,
      fun scope hs => hread scope (List.mem_of_mem_tail hs), ?_⟩
    · rw [declared, scopes]
      exact h.names_introduce hmem
    · rw [declared]
      exact fun x hx => h.pending x (pending hx)
    · rw [scopes, classes]
      exact h.receives.congr (distanceIn_introduce hname.ne_this.symm)
        (distanceIn_introduce hname.ne_super.symm)
  | opens scope names hplain hnames hv scopes classes declared pending =>
    have hread : ∀ scope ∈ w.state.scopes, Readable scope := by
      rw [scopes]
      exact List.forall_mem_cons.mpr ⟨hplain.readable, h.readable hv⟩
    refine ⟨hclean, hproper, by rw [declared, scopes]; exact .cons hnames h.names, ?_,
      inner_of_readable hread, fun scope hs => hread scope (List.mem_of_mem_tail hs), ?_⟩
    · rw [declared]
      rintro x hx _ ⟨⟩
      exact pending hx
    · rw [scopes, classes]
      exact h.receives.push hplain
  | opensClass name superclass hname hv hmem scopes classes declared pending =>
    have hread : ∀ scope ∈ w.state.scopes, Readable scope := by
      rw [scopes, List.forall_mem_append]
      refine ⟨?_, h.readable_introduce hv name⟩
      cases superclass <;> simp [classScopes, readable_singleton]
    refine ⟨hclean, hproper, ?_, by rw [pending]; exact List.forall_mem_nil _, inner_of_readable hread,
      fun scope hs => hread scope (List.mem_of_mem_tail hs), ?_⟩
    · have hnames := h.names_introduce hmem
      rw [declared, scopes]
      cases superclass with
      | none => exact .cons (by simp [lookup_cons]) hnames
      | some parent => exact .cons (by simp [lookup_cons]) (.cons (by simp [lookup_cons]) hnames)
    · rw [scopes, classes]
      exact receives_class superclass _

end Sound

/-- A program without errors whose distances are known. -/
structure Resolved (D : Distances) (program : List Stmt) : Prop where
  clean : Clean D (walkStmts program {})
  proper : Stmt.ProperAll program

theorem Resolved.sound {D : Distances} {program : List Stmt} (h : Resolved D program) :
    Sound D ⟨.stmts program, {}, []⟩ :=
  ⟨h.clean, h.proper, .nil, fun _ _ _ => nofun, nofun, nofun, fun hc => absurd rfl hc⟩

/-- **The invariants hold at every visit.** -/
theorem Visits.sound {D : Distances} {program : List Stmt} {v : Visit} (hv : Visits program v)
    (h : Resolved D program) : Sound D v := by
  induction hv with
  | refl => exact h.sound
  | tail _ hstep ih => exact ih.step hstep

/-! ## References -/

theorem distanceIn_eq_some {scopes : List Names} {x : String} {d : Nat}
    (h : distanceIn scopes x = some d) :
    ∃ scope, scopes[d]? = some scope ∧ (scope.lookup x).isSome = true := by
  obtain ⟨hlt, hscope, -⟩ := List.findIdx?_eq_some_iff_getElem.mp h
  exact ⟨scopes[d], List.getElem?_eq_getElem hlt, hscope⟩

/-- The innermost scope declares the name, and it cannot be read yet. -/
theorem isUnreadable_iff {s : State} {x : String} :
    s.isUnreadable x = true ↔ ∃ scope ∈ s.scopes.head?, scope.lookup x = some false := by
  unfold State.isUnreadable
  cases s.scopes with
  | nil => simp
  | cons scope rest => simp

namespace Sound

variable {D : Distances} {v : Visit} {s : State} {ns : List (List String)}

/-- What a scope declares up to here is among what it declares at all. -/
theorem mem_declared (h : Sound D v) {d : Nat} {scope : Names} {names : List String}
    (hscope : v.state.scopes[d]? = some scope) (hnames : v.declared[d]? = some names) {x : String}
    (hx : (scope.lookup x).isSome = true) : x ∈ names := by
  obtain ⟨-, hget⟩ := List.forall₂_iff_get.mp h.names
  obtain ⟨hlt, rfl⟩ := List.getElem?_eq_some_iff.mp hscope
  obtain ⟨hlt', rfl⟩ := List.getElem?_eq_some_iff.mp hnames
  exact hget d hlt hlt' x hx

/-- A keyword can always be read. -/
theorem keyword_readable (h : Sound D v) {x : String} (hx : x = "this" ∨ x = "super") :
    v.state.isUnreadable x = false := by
  refine Bool.eq_false_iff.mpr fun hun => ?_
  obtain ⟨scope, hscope, hl⟩ := isUnreadable_iff.mp hun
  obtain ⟨-, hthis, hsuper⟩ := h.inner scope hscope x hl
  exact hx.elim hthis hsuper

/-- A name that is declared can be read, unless it is in its own initializer. -/
theorem lookup_eq_true (h : Sound D v) {x : String} {d : Nat}
    (hd : distanceIn v.state.scopes x = some d) (hx : v.state.isUnreadable x = false) :
    ∃ scope, v.state.scopes[d]? = some scope ∧ scope.lookup x = some true := by
  obtain ⟨scope, hscope, hsome⟩ := distanceIn_eq_some hd
  refine ⟨scope, hscope, ?_⟩
  cases hl : scope.lookup x with
  | none => rw [hl] at hsome; cases hsome
  | some b =>
    cases b with
    | true => rfl
    | false =>
      cases hs : v.state.scopes with
      | nil => rw [hs] at hscope; simp at hscope
      | cons inner rest =>
        cases d with
        | zero =>
          have : v.state.isUnreadable x = true :=
            isUnreadable_iff.mpr ⟨scope, by rw [hs] at hscope ⊢; simpa using hscope, hl⟩
          rw [hx] at this
          cases this
        | succ d =>
          have hmem : scope ∈ v.state.scopes.tail := by
            rw [hs] at hscope ⊢
            exact List.mem_of_getElem? (by simpa using hscope)
          exact absurd hl (h.outer scope hmem x)

/-- A variable that is read leads where its distance says, and not into its own initializer. -/
theorem var {ref : RefId} {name : Token} (h : Sound D ⟨.expr (.var ref name), s, ns⟩) :
    D[ref]? = distanceIn s.scopes name.lexeme ∧ s.isUnreadable name.lexeme = false := by
  have hclean : Clean D (walkExpr (.var ref name) s) := h.clean
  unfold walkExpr at hclean
  cases hx : s.isUnreadable name.lexeme with
  | true =>
    have := hclean.errors
    simp [hx, State.bind, State.note] at this
  | false =>
    refine ⟨?_, rfl⟩
    rw [hx] at hclean
    exact hclean.bindings _ (Array.mem_push_self)

theorem assign {ref : RefId} {name : Token} {value : Expr}
    (h : Sound D ⟨.expr (.assign ref name value), s, ns⟩) :
    D[ref]? = distanceIn s.scopes name.lexeme := by
  have hclean : Clean D ((walkExpr value s).bind ref name) := h.clean
  have := hclean.bindings _ (Array.mem_push_self)
  rw [← scopes_walkExpr value s]
  exact this

theorem this {ref : RefId} {keyword : Token} (h : Sound D ⟨.expr (.this ref keyword), s, ns⟩) :
    ∃ k, D[ref]? = some k ∧ distanceIn s.scopes keyword.lexeme = some k := by
  have hclean : Clean D (walkExpr (.this ref keyword) s) := h.clean
  have hkeyword : keyword.lexeme = "this" := h.proper
  unfold walkExpr at hclean
  split_ifs at hclean with hc
  · have := hclean.errors
    simp [State.note] at this
  · obtain ⟨k, hk, -⟩ := h.receives hc
    have hbound := hclean.bindings _ (Array.mem_push_self)
    rw [hkeyword]
    refine ⟨k, ?_, hk⟩
    rw [hbound]
    exact hkeyword.symm ▸ hk

/-- `super` stands in a class that has a superclass. -/
theorem derived {ref : RefId} {keyword method : Token}
    (h : Sound D ⟨.expr (.super ref keyword method), s, ns⟩) : s.classes = .derived := by
  have hclean : Clean D ((s.checkSuper keyword).bind ref keyword) := h.clean
  have herrors := hclean.errors
  unfold State.checkSuper at herrors
  cases hc : s.classes with
  | derived => rfl
  | none => simp [hc, State.bind, State.note] at herrors
  | base => simp [hc, State.bind, State.note] at herrors

theorem super {ref : RefId} {keyword method : Token}
    (h : Sound D ⟨.expr (.super ref keyword method), s, ns⟩) :
    ∃ k, D[ref]? = some (k + 1) ∧ distanceIn s.scopes keyword.lexeme = some (k + 1) ∧
      distanceIn s.scopes "this" = some k := by
  have hclean : Clean D ((s.checkSuper keyword).bind ref keyword) := h.clean
  have hkeyword : keyword.lexeme = "super" := h.proper.1
  have hderived := h.derived
  obtain ⟨k, hthis, hsuper⟩ := h.receives (show s.classes ≠ .none by rw [hderived]; decide)
  have hbound := hclean.bindings _ (Array.mem_push_self)
  rw [hkeyword]
  refine ⟨k, ?_, hsuper hderived, hthis⟩
  rw [hbound]
  show distanceIn (s.checkSuper keyword).scopes keyword.lexeme = _
  rw [scopes_checkSuper, hkeyword]
  exact hsuper hderived

/-- The superclass of a class is another class, and leads where its distance says. -/
theorem superclass {name : Token} {parent : Superclass} {interface : Option Token}
    {methods : List FunctionDecl}
    (h : Sound D ⟨.stmt (.classDecl ⟨name, some parent, interface, methods⟩), s, ns⟩) :
    D[parent.ref]? = distanceIn s.scopes parent.name.lexeme ∧
      parent.name.lexeme ≠ name.lexeme := by
  have hmethods := (h.step .classMethods).clean
  have hclean := (advance_walkMethods methods _).1.noted.clean hmethods
  have hne : parent.name.lexeme ≠ name.lexeme := by
    intro heq
    have herrors := hclean.errors
    simp [enterClass, heq, enter, State.bind, State.note] at herrors
  refine ⟨?_, hne⟩
  rw [← distanceIn_introduce hne]
  have hscopes : distanceIn (s.introduce name).scopes parent.name.lexeme =
      distanceIn ({ s with classes := .base }.introduce name).scopes parent.name.lexeme := by
    rw [distanceIn_introduce hne, distanceIn_introduce hne]
  rw [hscopes]
  refine hclean.bindings ⟨parent.ref, parent.name.lexeme, _⟩ ?_
  have hbeq : (parent.name.lexeme == name.lexeme) = false := by simpa using hne
  simp only [enterClass, hbeq]
  exact Array.mem_push_self

end Sound

/-- The part stands in the initializer of a local variable of that name. -/
def OwnInitializer (program : List Stmt) (v : Visit) (x : String) : Prop :=
  ∃ (name : Token) (init : Expr) (s : State) (ns : List (List String)), name.lexeme = x ∧
    s.scopes ≠ [] ∧ Visits program ⟨.stmt (.declare name (some init)), s, ns⟩ ∧
      Relation.ReflTransGen Step ⟨.expr init, s.declare name, ns⟩ v

/-- **A name is declared and not readable only in its own initializer.** -/
theorem Visits.own_initializer {D : Distances} {program : List Stmt} {v : Visit}
    (hv : Visits program v) (h : Resolved D program) {x : String}
    (hx : v.state.isUnreadable x = true) :
    OwnInitializer program v x := by
  induction hv with
  | refl => cases hx
  | @tail v w hv hstep ih =>
    have hsound := Visits.sound hv h
    have hw := hsound.step hstep
    obtain ⟨scope, hmem, hl⟩ := isUnreadable_iff.mp hx
    have inside (hread : ∀ scope ∈ w.state.scopes, Readable scope) : False :=
      hread scope (List.mem_of_mem_head? hmem) x hl
    cases hstep.turn hsound.proper with
    | stays hs =>
      have hvx : v.state.isUnreadable x = true :=
        isUnreadable_iff.mpr ⟨scope, hs.scopes ▸ hmem, hl⟩
      obtain ⟨name, init, s, ns, hname, hlocal, hlet, hreach⟩ := ih hvx
      exact ⟨name, init, s, ns, hname, hlocal, hlet, hreach.tail hstep⟩
    | declares name e hname hcode hcode' state declared =>
      obtain ⟨vc, vs, vn⟩ := v
      obtain ⟨wc, ws, wn⟩ := w
      simp only at hcode hcode' state declared
      subst hcode hcode' state declared
      rcases declare_cases vs name with ⟨-, h'⟩ | ⟨scope₀, scope', rest, hs, h', hlookup, -⟩
      · rw [h'] at hmem; cases hmem
      by_cases hxn : x = name.lexeme
      · exact ⟨name, e, vs, _, hxn.symm, by rw [hs]; exact List.cons_ne_nil _ _, hv, .refl⟩
      · rw [h'] at hmem
        cases hmem
        rw [hlookup x hxn] at hl
        exact absurd hl (hsound.readable rfl scope₀ (by rw [hs]; exact List.mem_cons_self) x)
    | introduces name hname hvc hmem' scopes classes declared pending =>
      exact (inside (by rw [scopes]; exact hsound.readable_introduce hvc name)).elim
    | opens scope' names hplain hnames hvc scopes classes declared pending =>
      refine (inside ?_).elim
      rw [scopes]
      exact List.forall_mem_cons.mpr ⟨hplain.readable, hsound.readable hvc⟩
    | opensClass name superclass hname hvc hmem' scopes classes declared pending =>
      refine (inside ?_).elim
      rw [scopes, List.forall_mem_append]
      refine ⟨?_, hsound.readable_introduce hvc name⟩
      cases superclass <;> simp [classScopes, readable_singleton]

end Scriptlet.Scope
