import Scriptlet.Proofs.Scope.Visit

/-!
# Scopes of a program read with its `for` loops

The parser writes `for (init; cond; step) body` as a loop over the block `{ body; step; }`. The tree does
not show any more that this block, the *turn* of the loop, was not written as one. A `Reading` says which
blocks are read as turns; these are `direct`, they have no scope of their own. Whatever the reading, a turn
declares nothing, so the scope that it does without would stay empty. Blocks that are the same tree are
read the same way; as references have identities of their own, there is no reference in such blocks.

Two walks are compared: one over the tree as it stands, and one that reads it. Of each open scope a list of
flags says whether the second walk has *folded* it, the innermost first. A name that is found at a distance
in the first walk is never found in a folded scope, and in the second walk it is nearer by the number of
folded scopes on the way (`Distance.Folds`). A part of the program is `Led` if this holds for all
references in it, each seen from the scopes that are open there.

Results:
* `Reading.everyTurn_direct`: the turns of all `for` loops can be read.
* `readStmts`: the walk that reads turns.
* `readStmt_forInit`, `readStmt_forTurn`: what that walk makes of a `for`.
* `errors_of_resolved`, `led_of_resolved`: **a program without errors has none when its turns are read,
  and is led.**
-/

namespace Scriptlet

/-- **Which blocks are read as the turn of a `for`**: a statement that declares nothing, and the step. -/
structure Reading where
  direct : List Stmt → Bool
  turn {body : List Stmt} (h : direct body = true) :
    ∃ st step, body = [st, .expr step] ∧ st.declared? = none

namespace Reading

/-- Every block that may be a turn is read as one. -/
def everyTurn : Reading where
  direct
    | [st, .expr _] => st.declared?.isNone
    | _ => false
  turn {body} h := by
    split at h
    · next st step => exact ⟨st, step, rfl, Option.isNone_iff_eq_none.mp h⟩
    · cases h

/-- **The turn of every `for` is read**: its body is a statement, and these declare nothing. -/
theorem everyTurn_direct {dangling : Bool} {ts : List Token} {body : Stmt}
    (h : Grammar.Derives (.statement dangling) ts body) (hts : Grammar.Spelled ts) (step : Expr) :
    everyTurn.direct [body, .expr step] = true := by
  have hbody : body.declared? = none := (h.proper hts).2
  simp [everyTurn, hbody]

/-- The block of an initializer and a loop is no turn. -/
theorem not_direct_loop (R : Reading) (init : Stmt) (cond : Expr) (body : Stmt) :
    R.direct [init, .loop cond body] = false := by
  refine Bool.eq_false_iff.mpr fun h => ?_
  obtain ⟨st, e, heq, -⟩ := R.turn h
  cases heq

theorem not_declared (R : Reading) {body : List Stmt} (h : R.direct body = true) :
    ∀ st ∈ body, st.declared? = none := by
  obtain ⟨st, step, rfl, hst⟩ := R.turn h
  intro st' hmem
  rcases List.mem_pair.mp hmem with rfl | rfl
  · exact hst
  · rfl

end Reading

namespace Scope

open State

/-! ## The walk that reads turns -/

mutual

/-- The walk over a statement. It differs from the other one in blocks: a turn is walked over in the
scopes around it. -/
def readStmt (R : Reading) : Stmt → State → State
  | .expr e, s => walkExpr e s
  | .declare name none, s => s.introduce name
  | .declare name (some init), s => (walkExpr init (s.declare name)).define name
  | .block body, s =>
    if R.direct body then readStmts R body s else (readStmts R body (s.enter [])).leave
  | .branch cond thenDo none, s => readStmt R thenDo (walkExpr cond s)
  | .branch cond thenDo (some elseDo), s =>
    readStmt R elseDo (readStmt R thenDo (walkExpr cond s))
  | .loop cond body, s => readStmt R body (walkExpr cond s)
  | .function decl, s => readFunction R .function decl (s.introduce decl.name)
  | .ret keyword none, s => s.checkReturn keyword false
  | .ret keyword (some value), s => walkExpr value (s.checkReturn keyword true)
  | .classDecl decl, s => readClass R decl s
termination_by structural stmt => stmt

def readFunction (R : Reading) (context : FunctionContext) : FunctionDecl → State → State
  | ⟨_, params, body⟩, s =>
    { (readStmts R body (enterFunction context params s)).leave with function := s.function }
termination_by structural decl => decl

def readClass (R : Reading) : ClassDecl → State → State
  | ⟨name, superclass, _, methods⟩, s =>
    { leaveClass superclass (readMethods R methods (enterClass name superclass s)) with
      classes := s.classes }
termination_by structural decl => decl

def readMethods (R : Reading) : List FunctionDecl → State → State
  | [], s => s
  | method :: methods, s =>
    readMethods R methods (readFunction R (methodContext method.name) method s)
termination_by structural methods => methods

def readStmts (R : Reading) : List Stmt → State → State
  | [], s => s
  | stmt :: stmts, s => readStmts R stmts (readStmt R stmt s)
termination_by structural stmts => stmts

end

/-- A turn is resolved in the scopes around it. -/
theorem readStmt_direct {R : Reading} {body : List Stmt} (h : R.direct body = true) (s : State) :
    readStmt R (.block body) s = readStmts R body s := if_pos h

/-- Any other block has a scope of its own. -/
theorem readStmt_block {R : Reading} {body : List Stmt} (h : R.direct body = false) (s : State) :
    readStmt R (.block body) s = (readStmts R body (s.enter [])).leave := if_neg (by simp [h])

/-- **The initializer of a `for` has a scope**, and the loop is resolved in it. -/
theorem readStmt_forInit (R : Reading) (init : Stmt) (cond step : Option Expr) (body : Stmt)
    (s : State) :
    readStmt R (Parser.forLoop (some init) cond step body) s =
      (readStmt R (Parser.forLoop none cond step body) (readStmt R init (s.enter []))).leave :=
  readStmt_block (R.not_direct_loop init _ _) s

/-- **The condition, the body and the step of a `for` are resolved in one scope.** -/
theorem readStmt_forTurn {R : Reading} (cond : Option Expr) {body : Stmt} {step : Expr}
    (h : R.direct [body, .expr step] = true) (s : State) :
    readStmt R (Parser.forLoop none cond (some step) body) s =
      walkExpr step (readStmt R body (walkExpr (cond.getD (.literal (.bool true))) s)) :=
  readStmt_direct h _

theorem readStmt_forTurn_stepless (R : Reading) (cond : Option Expr) (body : Stmt) (s : State) :
    readStmt R (Parser.forLoop none cond none body) s =
      readStmt R body (walkExpr (cond.getD (.literal (.bool true))) s) := rfl

/-! ## Folded scopes -/

/-- The same scopes, without those that are folded; these are empty. -/
inductive ScopesFold : List Bool → List Names → List Names → Prop
  | nil : ScopesFold [] [] []
  | kept (scope : Names) {fl scopes scopes'} (h : ScopesFold fl scopes scopes') :
    ScopesFold (false :: fl) (scope :: scopes) (scope :: scopes')
  | folded {fl scopes scopes'} (h : ScopesFold fl scopes scopes') :
    ScopesFold (true :: fl) ([] :: scopes) scopes'

/-- The innermost scope is not folded. -/
def Unfolded (fl : List Bool) : Prop := fl.head? ≠ some true

theorem unfolded_kept (fl : List Bool) : Unfolded (false :: fl) := by simp [Unfolded]

/-- The scopes that a class opens are never folded. -/
def classFlags : Option Superclass → List Bool
  | none => [false]
  | some _ => [false, false]

/-- **Distances in two walks**, seen from scopes of which some are folded: a name is global in both, or it
is found in a scope that is not folded, in the second walk nearer by those that are. -/
inductive Distance.Folds (fl : List Bool) : Option Nat → Option Nat → Prop
  | global : Folds fl none none
  | scope {d : Nat} (h : fl[d]? = some false) :
    Folds fl (some d) (some ((fl.take d).count false))

namespace ScopesFold

variable {fl : List Bool} {scopes scopes' : List Names}

theorem sublist (h : ScopesFold fl scopes scopes') : scopes'.Sublist scopes := by
  induction h with
  | nil => exact .slnil
  | kept scope _ ih => exact ih.cons_cons scope
  | folded _ ih => exact ih.cons []

theorem tail_kept (h : ScopesFold (false :: fl) scopes scopes') :
    ScopesFold fl scopes.tail scopes'.tail := by
  cases h with
  | kept _ h => exact h

theorem tail_folded (h : ScopesFold (true :: fl) scopes scopes') :
    ScopesFold fl scopes.tail scopes' := by
  cases h with
  | folded h => exact h

/-- If the innermost scope is not folded, it is the same in both walks, unless no scope is open. -/
theorem innermost (h : ScopesFold fl scopes scopes') (hfl : Unfolded fl) :
    (scopes = [] ∧ scopes' = []) ∨ ∃ scope rest rest', scopes = scope :: rest ∧
      scopes' = scope :: rest' ∧ ∀ scope', ScopesFold fl (scope' :: rest) (scope' :: rest') := by
  cases h with
  | nil => exact .inl ⟨rfl, rfl⟩
  | kept scope h => exact .inr ⟨scope, _, _, rfl, rfl, fun scope' => .kept scope' h⟩
  | folded h => exact absurd rfl hfl

theorem distance (h : ScopesFold fl scopes scopes') (x : String) :
    Distance.Folds fl (distanceIn scopes x) (distanceIn scopes' x) := by
  induction h with
  | nil => exact .global
  | @kept scope fl scopes scopes' _ ih =>
    rw [distanceIn_cons, distanceIn_cons]
    split_ifs
    · exact .scope rfl
    · generalize distanceIn scopes x = d at ih ⊢
      generalize distanceIn scopes' x = d' at ih ⊢
      cases ih with
      | global => exact .global
      | @scope d h =>
        have hcount : ((false :: fl).take (d + 1)).count false = (fl.take d).count false + 1 := by
          simp
        rw [Option.map_some, Option.map_some, ← hcount]
        exact .scope h
  | @folded fl scopes scopes' _ ih =>
    rw [distanceIn_cons]
    generalize distanceIn scopes x = d at ih ⊢
    generalize distanceIn scopes' x = d' at ih ⊢
    cases ih with
    | global => exact .global
    | @scope d h =>
      have hcount : ((true :: fl).take (d + 1)).count false = (fl.take d).count false := by simp
      rw [← hcount]
      exact .scope h

end ScopesFold

/-- **Two walks have come to the same part**, the second with some scopes folded. They have noted the same
errors, and bindings of the same references. -/
structure State.Folds (fl : List Bool) (s s' : State) : Prop where
  scopes : ScopesFold fl s.scopes s'.scopes
  function : s.function = s'.function
  classes : s.classes = s'.classes
  errors : s.errors = s'.errors
  refs : s.bindings.toList.map (·.ref) = s'.bindings.toList.map (·.ref)

namespace State.Folds

variable {fl : List Bool} {s s' : State}

theorem note (h : s.Folds fl s') (t : Token) (fault : ScopeFault) :
    (s.note t fault).Folds fl (s'.note t fault) := by
  refine ⟨h.scopes, h.function, h.classes, ?_, h.refs⟩
  simp only [State.note, h.errors]

theorem bind (h : s.Folds fl s') (ref : RefId) (name : Token) :
    (s.bind ref name).Folds fl (s'.bind ref name) := by
  refine ⟨h.scopes, h.function, h.classes, h.errors, ?_⟩
  simp only [State.bind, Array.toList_push, List.map_append, h.refs, List.map_cons, List.map_nil]

theorem enter (h : s.Folds fl s') (names : Names) :
    (s.enter names).Folds (false :: fl) (s'.enter names) :=
  ⟨.kept names h.scopes, h.function, h.classes, h.errors, h.refs⟩

/-- The first walk enters a scope that the second one folds. -/
theorem fold (h : s.Folds fl s') : (s.enter []).Folds (true :: fl) s' :=
  ⟨.folded h.scopes, h.function, h.classes, h.errors, h.refs⟩

theorem leave (h : s.Folds (false :: fl) s') : s.leave.Folds fl s'.leave :=
  ⟨h.scopes.tail_kept, h.function, h.classes, h.errors, h.refs⟩

theorem unfold (h : s.Folds (true :: fl) s') : s.leave.Folds fl s' :=
  ⟨h.scopes.tail_folded, h.function, h.classes, h.errors, h.refs⟩

theorem setFunction (h : s.Folds fl s') (c : FunctionContext) :
    State.Folds fl { s with function := c } { s' with function := c } :=
  ⟨h.scopes, rfl, h.classes, h.errors, h.refs⟩

theorem setClasses (h : s.Folds fl s') (c : ClassContext) :
    State.Folds fl { s with classes := c } { s' with classes := c } :=
  ⟨h.scopes, h.function, rfl, h.errors, h.refs⟩

theorem add (h : s.Folds fl s') (hfl : Unfolded fl) (x : String) (readable : Bool) :
    (s.add x readable).Folds fl (s'.add x readable) := by
  unfold State.add
  rcases h.scopes.innermost hfl with ⟨hs, hs'⟩ | ⟨scope, rest, rest', hs, hs', hfold⟩
  · rw [hs, hs']
    exact h
  · rw [hs, hs']
    exact ⟨hfold _, h.function, h.classes, h.errors, h.refs⟩

theorem declare (h : s.Folds fl s') (hfl : Unfolded fl) (name : Token) :
    (s.declare name).Folds fl (s'.declare name) := by
  have hadd := h.add hfl name.lexeme false
  have hnote := h.note name .alreadyDeclared
  unfold State.declare
  rcases h.scopes.innermost hfl with ⟨hs, hs'⟩ | ⟨scope, rest, rest', hs, hs', -⟩
  · rw [hs, hs']
    exact h
  · rw [hs, hs']
    dsimp only
    split_ifs
    · exact hnote
    · exact hadd

theorem introduce (h : s.Folds fl s') (hfl : Unfolded fl) (name : Token) :
    (s.introduce name).Folds fl (s'.introduce name) := (h.declare hfl name).add hfl _ true

theorem introduceAll (h : s.Folds fl s') (hfl : Unfolded fl) (params : List Token) :
    (params.foldl State.introduce s).Folds fl (params.foldl State.introduce s') := by
  induction params generalizing s s' with
  | nil => exact h
  | cons p ps ih => exact ih (h.introduce hfl p)

theorem enterFunction (h : s.Folds fl s') (context : FunctionContext) (params : List Token) :
    (enterFunction context params s).Folds (false :: fl) (enterFunction context params s') :=
  ((h.setFunction context).enter []).introduceAll (unfolded_kept fl) params

theorem checkReturn (h : s.Folds fl s') (t : Token) (hasValue : Bool) :
    (s.checkReturn t hasValue).Folds fl (s'.checkReturn t hasValue) := by
  unfold State.checkReturn
  rw [← h.function]
  split
  · exact h.note _ _
  · exact h.note _ _
  · exact h
  · exact h

theorem checkSuper (h : s.Folds fl s') (t : Token) :
    (s.checkSuper t).Folds fl (s'.checkSuper t) := by
  unfold State.checkSuper
  rw [← h.classes]
  split
  · exact h.note _ _
  · exact h.note _ _
  · exact h

theorem leaveClass {superclass : Option Superclass} (h : s.Folds (classFlags superclass ++ fl) s') :
    (leaveClass superclass s).Folds fl (leaveClass superclass s') := by
  cases superclass with
  | none => exact h.leave
  | some _ => exact h.leave.leave

/-- What can be read in the first walk can be read in the second: there the innermost scope is the same,
or one further out. -/
theorem isUnreadable (h : s.Folds fl s') (houter : ∀ scope ∈ s.scopes.tail, Readable scope)
    {x : String} (hx : s.isUnreadable x = false) : s'.isUnreadable x = false := by
  by_cases hfl : Unfolded fl
  · unfold State.isUnreadable at hx ⊢
    rcases h.scopes.innermost hfl with ⟨hs, hs'⟩ | ⟨scope, rest, rest', hs, hs', -⟩
    · rw [hs']
    · rw [hs] at hx
      rw [hs']
      exact hx
  · obtain ⟨fl, rfl⟩ : ∃ fl', fl = true :: fl' := by
      simpa [Unfolded, List.head?_eq_some_iff] using hfl
    refine Bool.eq_false_iff.mpr fun hun => ?_
    obtain ⟨scope, hmem, hl⟩ := isUnreadable_iff.mp hun
    exact houter scope (h.scopes.tail_folded.sublist.subset (List.mem_of_mem_head? hmem)) x hl

end State.Folds

/-! ## Parts of a program that are led -/

/-- What is known of references, given the flags of the scopes around them. -/
structure Guide where
  ref : RefId → List Bool → Prop
  super : RefId → List Bool → Prop

/-- References that were `given` lead where the distances of two walks say: to scopes that answer each
other. The one of `super` is just outside the one of its receiver. -/
def Guide.ofDistances (given : RefId → Prop) (D D' : Distances) : Guide where
  ref r fl := given r ∧ Distance.Folds fl D[r]? D'[r]?
  super r fl := given r ∧ ∃ k, D[r]? = some (k + 1) ∧ D'[r]? = some ((fl.take k).count false + 1) ∧
    fl[k]? = some false ∧ fl[k + 1]? = some false

end Scope

open Scope

section
variable (G : Guide) (fl : List Bool)

mutual

/-- All references of the expression are led. -/
def Expr.Led : Expr → Prop
  | .literal _ => True
  | .unary _ operand => operand.Led
  | .binary left _ right => left.Led ∧ right.Led
  | .logical left _ right => left.Led ∧ right.Led
  | .group inner => inner.Led
  | .var ref _ => G.ref ref fl
  | .assign ref _ value => value.Led ∧ G.ref ref fl
  | .call callee _ args => callee.Led ∧ Expr.LedAll args
  | .get object _ => object.Led
  | .set object _ value => value.Led ∧ object.Led
  | .this ref _ => G.ref ref fl
  | .super ref _ _ => G.super ref fl
termination_by structural e => e

def Expr.LedAll : List Expr → Prop
  | [] => True
  | e :: es => e.Led ∧ Expr.LedAll es
termination_by structural es => es

end

end

mutual

/-- All references of the statement are led, and nothing is declared in a folded scope. -/
def Stmt.Led (R : Reading) (G : Guide) : Stmt → List Bool → Prop
  | .expr e, fl => e.Led G fl
  | .declare _ none, fl => Unfolded fl
  | .declare _ (some init), fl => Unfolded fl ∧ init.Led G fl
  | .block body, fl => Stmt.LedAll R G body (R.direct body :: fl)
  | .branch cond thenDo none, fl => cond.Led G fl ∧ thenDo.Led R G fl
  | .branch cond thenDo (some elseDo), fl =>
    (cond.Led G fl ∧ thenDo.Led R G fl) ∧ elseDo.Led R G fl
  | .loop cond body, fl => cond.Led G fl ∧ body.Led R G fl
  | .function decl, fl => Unfolded fl ∧ decl.Led R G fl
  | .ret _ none, _ => True
  | .ret _ (some value), fl => value.Led G fl
  | .classDecl decl, fl => Unfolded fl ∧ decl.Led R G fl
termination_by structural st => st

def FunctionDecl.Led (R : Reading) (G : Guide) : FunctionDecl → List Bool → Prop
  | ⟨_, _, body⟩, fl => Stmt.LedAll R G body (false :: fl)
termination_by structural decl => decl

def ClassDecl.Led (R : Reading) (G : Guide) : ClassDecl → List Bool → Prop
  | ⟨_, superclass, _, methods⟩, fl =>
    (∀ parent ∈ superclass, G.ref parent.ref fl) ∧
      FunctionDecl.LedAll R G methods (classFlags superclass ++ fl)
termination_by structural decl => decl

def Stmt.LedAll (R : Reading) (G : Guide) : List Stmt → List Bool → Prop
  | [], _ => True
  | st :: ss, fl => st.Led R G fl ∧ Stmt.LedAll R G ss fl
termination_by structural ss => ss

def FunctionDecl.LedAll (R : Reading) (G : Guide) : List FunctionDecl → List Bool → Prop
  | [], _ => True
  | d :: ds, fl => d.Led R G fl ∧ FunctionDecl.LedAll R G ds fl
termination_by structural ds => ds

end

/-- What is known by `G` is known by `G'`. -/
structure Scope.Guide.Within (G G' : Guide) : Prop where
  ref (r : RefId) (fl : List Bool) : G.ref r fl → G'.ref r fl
  super (r : RefId) (fl : List Bool) : G.super r fl → G'.super r fl

section
variable {G G' : Guide}

mutual

theorem Expr.Led.mono (hG : G.Within G') : ∀ (e : Expr) {fl : List Bool}, e.Led G fl → e.Led G' fl
  | .literal _, _, _ => trivial
  | .group inner, _, h => Expr.Led.mono hG inner h
  | .unary _ operand, _, h => Expr.Led.mono hG operand h
  | .binary l _ r, _, h => ⟨Expr.Led.mono hG l h.1, Expr.Led.mono hG r h.2⟩
  | .logical l _ r, _, h => ⟨Expr.Led.mono hG l h.1, Expr.Led.mono hG r h.2⟩
  | .var .., _, h => hG.ref _ _ h
  | .assign _ _ e, _, h => ⟨Expr.Led.mono hG e h.1, hG.ref _ _ h.2⟩
  | .call e _ args, _, h => ⟨Expr.Led.mono hG e h.1, Expr.LedAll.mono hG args h.2⟩
  | .get e _, _, h => Expr.Led.mono hG e h
  | .set o _ e, _, h => ⟨Expr.Led.mono hG e h.1, Expr.Led.mono hG o h.2⟩
  | .this .., _, h => hG.ref _ _ h
  | .super .., _, h => hG.super _ _ h

theorem Expr.LedAll.mono (hG : G.Within G') : ∀ (es : List Expr) {fl : List Bool},
    Expr.LedAll G fl es → Expr.LedAll G' fl es
  | [], _, _ => trivial
  | e :: es, _, h => ⟨Expr.Led.mono hG e h.1, Expr.LedAll.mono hG es h.2⟩

end

mutual

theorem Stmt.Led.mono {R : Reading} (hG : G.Within G') : ∀ (st : Stmt) {fl : List Bool},
    st.Led R G fl → st.Led R G' fl
  | .expr e, _, h => Expr.Led.mono hG e h
  | .declare _ none, _, h => h
  | .declare _ (some e), _, h => ⟨h.1, Expr.Led.mono hG e h.2⟩
  | .block body, _, h => Stmt.LedAll.mono hG body h
  | .branch c t none, _, h => ⟨Expr.Led.mono hG c h.1, Stmt.Led.mono hG t h.2⟩
  | .branch c t (some o), _, h =>
    ⟨⟨Expr.Led.mono hG c h.1.1, Stmt.Led.mono hG t h.1.2⟩, Stmt.Led.mono hG o h.2⟩
  | .loop c b, _, h => ⟨Expr.Led.mono hG c h.1, Stmt.Led.mono hG b h.2⟩
  | .function d, _, h => ⟨h.1, FunctionDecl.Led.mono hG d h.2⟩
  | .ret _ none, _, _ => trivial
  | .ret _ (some e), _, h => Expr.Led.mono hG e h
  | .classDecl d, _, h => ⟨h.1, ClassDecl.Led.mono hG d h.2⟩

theorem FunctionDecl.Led.mono {R : Reading} (hG : G.Within G') : ∀ (d : FunctionDecl)
    {fl : List Bool}, d.Led R G fl → d.Led R G' fl
  | ⟨_, _, body⟩, _, h => Stmt.LedAll.mono hG body h

theorem ClassDecl.Led.mono {R : Reading} (hG : G.Within G') : ∀ (d : ClassDecl) {fl : List Bool},
    d.Led R G fl → d.Led R G' fl
  | ⟨_, _, _, methods⟩, _, h =>
    ⟨fun parent hparent => hG.ref _ _ (h.1 parent hparent), FunctionDecl.LedAll.mono hG methods h.2⟩

theorem Stmt.LedAll.mono {R : Reading} (hG : G.Within G') : ∀ (ss : List Stmt) {fl : List Bool},
    Stmt.LedAll R G ss fl → Stmt.LedAll R G' ss fl
  | [], _, _ => trivial
  | st :: ss, _, h => ⟨Stmt.Led.mono hG st h.1, Stmt.LedAll.mono hG ss h.2⟩

theorem FunctionDecl.LedAll.mono {R : Reading} (hG : G.Within G') : ∀ (ds : List FunctionDecl)
    {fl : List Bool}, FunctionDecl.LedAll R G ds fl → FunctionDecl.LedAll R G' ds fl
  | [], _, _ => trivial
  | d :: ds, _, h => ⟨FunctionDecl.Led.mono hG d h.1, FunctionDecl.LedAll.mono hG ds h.2⟩

end

end

namespace Scope

open State

/-! ## Both walks -/

/-- All bindings that are noted are of references that were `given`, and their distances are known. -/
def AllBound (given : RefId → Prop) (D : Distances) (s : State) : Prop :=
  ∀ b ∈ s.bindings, given b.ref ∧ D[b.ref]? = b.distance

/-- **Both walks have gone over the same part**, from a state with `s'` as the second one to `t` and `t'`,
and the part is led if all that is noted in the end is bound. -/
structure Follows (given : RefId → Prop) (D' : Distances) (led : Prop) (fl : List Bool)
    (s' t t' : State) : Prop where
  folds : t.Folds fl t'
  led : AllBound given D' t' → AllBound given D' s' ∧ led

namespace Follows

variable {given : RefId → Prop} {D' : Distances} {p q : Prop} {fl fl' : List Bool}
  {s s' t t' u u' : State}

theorem refl (h : s.Folds fl s') (hp : p) : Follows given D' p fl s' s s' :=
  ⟨h, fun hb => ⟨hb, hp⟩⟩

/-- One part after the other. -/
theorem seq (h : Follows given D' p fl s' t t') (h' : Follows given D' q fl t' u u') :
    Follows given D' (p ∧ q) fl s' u u' := by
  refine ⟨h'.folds, fun hb => ?_⟩
  obtain ⟨hb, hq⟩ := h'.led hb
  obtain ⟨hb, hp⟩ := h.led hb
  exact ⟨hb, hp, hq⟩

/-- What is done before and after the part notes no binding. -/
theorem within (h : Follows given D' p fl s' t t') (hu : u.Folds fl' u')
    (hstart : s'.bindings = s.bindings) (hend : u'.bindings = t'.bindings) :
    Follows given D' p fl' s u u' := by
  refine ⟨hu, fun hb => ?_⟩
  obtain ⟨hbound, hp⟩ := h.led fun b hmem => hb b (hend ▸ hmem)
  exact ⟨fun b hmem => hbound b (hstart ▸ hmem), hp⟩

theorem imp (h : Follows given D' p fl s' t t') (hpq : p → q) : Follows given D' q fl s' t t' :=
  ⟨h.folds, fun hb => (h.led hb).imp_right hpq⟩

end Follows

section
variable {given : RefId → Prop} {D D' : Distances} {fl : List Bool} {s s' : State}
  {ns : List (List String)}

theorem AllBound.of_bind {ref : RefId} {name : Token} (h : AllBound given D' (s'.bind ref name)) :
    AllBound given D' s' ∧ given ref ∧ D'[ref]? = distanceIn s'.scopes name.lexeme :=
  ⟨fun b hb => h b (Array.mem_push_of_mem _ hb), h _ Array.mem_push_self⟩

/-- A reference is bound in both walks. -/
theorem follows_bind (hs : s.Folds fl s') {ref : RefId} {name : Token}
    (hd : D[ref]? = distanceIn s.scopes name.lexeme) :
    Follows given D' ((Guide.ofDistances given D D').ref ref fl) fl s' (s.bind ref name)
      (s'.bind ref name) := by
  refine ⟨hs.bind ref name, fun hb => ?_⟩
  obtain ⟨hbound, hgiven, hd'⟩ := hb.of_bind
  refine ⟨hbound, hgiven, ?_⟩
  rw [hd, hd']
  exact hs.scopes.distance _

/-- `super` is bound just outside its receiver, and neither scope is folded. -/
theorem follows_bindSuper (hs : s.Folds fl s') {ref : RefId} {keyword : Token} {k : Nat}
    (hd : D[ref]? = some (k + 1)) (hsuper : distanceIn s.scopes keyword.lexeme = some (k + 1))
    (hthis : distanceIn s.scopes "this" = some k) :
    Follows given D' ((Guide.ofDistances given D D').super ref fl) fl s' (s.bind ref keyword)
      (s'.bind ref keyword) := by
  refine ⟨hs.bind ref keyword, fun hb => ?_⟩
  obtain ⟨hbound, hgiven, hd'⟩ := hb.of_bind
  have hfolds := hs.scopes.distance keyword.lexeme
  have hinner := hs.scopes.distance "this"
  rw [hsuper, ← hd'] at hfolds
  rw [hthis] at hinner
  generalize hd' : D'[ref]? = d' at hfolds
  generalize distanceIn s'.scopes "this" = e' at hinner
  cases hinner with
  | scope hkept =>
    cases hfolds with
    | scope hkept' =>
      refine ⟨hbound, hgiven, k, hd, ?_, hkept, hkept'⟩
      rw [hd', List.take_add_one, hkept]
      simp

mutual

theorem follows_walkExpr : ∀ (e : Expr) {s s' : State}, Sound D ⟨.expr e, s, ns⟩ → s.Folds fl s' →
    Follows given D' (e.Led (.ofDistances given D D') fl) fl s' (walkExpr e s) (walkExpr e s')
  | .literal _, _, _, _, hs => .refl hs trivial
  | .group inner, _, _, h, hs => follows_walkExpr inner (h.step .group) hs
  | .unary _ operand, _, _, h, hs => follows_walkExpr operand (h.step .operand) hs
  | .binary left _ right, _, _, h, hs =>
    have hleft := follows_walkExpr left (h.step .left) hs
    hleft.seq (follows_walkExpr right (h.step .right) hleft.folds)
  | .logical left _ right, _, _, h, hs =>
    have hleft := follows_walkExpr left (h.step .leftLogical) hs
    hleft.seq (follows_walkExpr right (h.step .rightLogical) hleft.folds)
  | .var ref name, s, s', h, hs => by
    obtain ⟨hd, hread⟩ := h.var
    have hread' := hs.isUnreadable h.outer hread
    simp only [walkExpr, hread, hread', Bool.false_eq_true, if_false]
    exact follows_bind hs hd
  | .assign ref name value, s, s', h, hs => by
    have hvalue := follows_walkExpr value (h.step .assigned) hs
    refine hvalue.seq (follows_bind hvalue.folds ?_)
    rw [scopes_walkExpr]
    exact h.assign
  | .call callee _ args, _, _, h, hs =>
    have hcallee := follows_walkExpr callee (h.step .callee) hs
    hcallee.seq (follows_walkExprs args (h.step .arguments) hcallee.folds)
  | .get object _, _, _, h, hs => follows_walkExpr object (h.step .object) hs
  | .set object _ value, _, _, h, hs =>
    have hvalue := follows_walkExpr value (h.step .setValue) hs
    hvalue.seq (follows_walkExpr object (h.step .setObject) hvalue.folds)
  | .this ref keyword, s, s', h, hs => by
    obtain ⟨k, hd, hthis⟩ := h.this
    have hclass : s.classes ≠ .none := by
      intro hnone
      have herrors := h.clean.errors
      simp [Code.walk, walkExpr, hnone, State.note] at herrors
    unfold walkExpr
    rw [if_neg hclass, if_neg (hs.classes ▸ hclass)]
    exact follows_bind hs (hd.trans hthis.symm)
  | .super ref keyword _, s, s', h, hs => by
    obtain ⟨k, hd, hsuper, hthis⟩ := h.super
    have hclass := h.derived
    have hcheck : s.checkSuper keyword = s := by simp only [State.checkSuper, hclass]
    have hcheck' : s'.checkSuper keyword = s' := by
      simp only [State.checkSuper, ← hs.classes, hclass]
    unfold walkExpr
    rw [hcheck, hcheck']
    exact follows_bindSuper hs hd hsuper hthis

theorem follows_walkExprs : ∀ (es : List Expr) {s s' : State}, Sound D ⟨.exprs es, s, ns⟩ →
    s.Folds fl s' → Follows given D' (Expr.LedAll (.ofDistances given D D') fl es) fl s'
      (walkExprs es s) (walkExprs es s')
  | [], _, _, _, hs => .refl hs trivial
  | e :: es, _, _, h, hs =>
    have hfirst := follows_walkExpr e (h.step .firstExpr) hs
    hfirst.seq (follows_walkExprs es (h.step .otherExprs) hfirst.folds)

end

theorem follows_enterClass {name : Token} {superclass : Option Superclass} {interface : Option Token}
    {methods : List FunctionDecl}
    (h : Sound D ⟨.stmt (.classDecl ⟨name, superclass, interface, methods⟩), s, ns⟩)
    (hs : s.Folds fl s') (hfl : Unfolded fl) :
    Follows given D' (∀ parent ∈ superclass, (Guide.ofDistances given D D').ref parent.ref fl)
      (classFlags superclass ++ fl) s' (enterClass name superclass s)
      (enterClass name superclass s') := by
  have hbase := (hs.setClasses .base).introduce hfl name
  have hbindings : ({ s' with classes := .base }.introduce name).bindings = s'.bindings :=
    bindings_introduce _ name
  cases superclass with
  | none => exact (Follows.refl hs nofun).within (hbase.enter _) rfl hbindings
  | some parent =>
    obtain ⟨hd, hne⟩ := h.superclass
    have hbeq : (parent.name.lexeme == name.lexeme) = false := by simpa using hne
    have hintroduced : D[parent.ref]? =
        distanceIn ({ s with classes := .base }.introduce name).scopes parent.name.lexeme := by
      rw [distanceIn_introduce hne]
      exact hd
    have hbound : Follows given D' _ fl _ _ _ :=
      follows_bind (hbase.setClasses .derived) hintroduced
    simp only [enterClass, hbeq, Bool.false_eq_true, if_false]
    refine (hbound.within ((hbound.folds.enter _).enter _) hbindings rfl).imp fun hparent => ?_
    rintro _ ⟨⟩
    exact hparent

mutual

theorem follows_readStmt (R : Reading) : ∀ (st : Stmt) {s s' : State} {ns : List (List String)}
    {fl : List Bool}, Sound D ⟨.stmt st, s, ns⟩ → s.Folds fl s' →
    (st.declared? ≠ none → Unfolded fl) →
    Follows given D' (st.Led R (.ofDistances given D D') fl) fl s' (walkStmt st s)
      (readStmt R st s')
  | .expr e, _, _, _, _, h, hs, _ => follows_walkExpr e (h.step .evaluated) hs
  | .declare name none, _, _, _, _, _, hs, hfl =>
    (Follows.refl hs (hfl nofun)).within (hs.introduce (hfl nofun) name) rfl
      (bindings_introduce _ name)
  | .declare name (some init), _, _, _, _, h, hs, hfl =>
    have hdeclared := hs.declare (hfl nofun) name
    have hinit := follows_walkExpr init (h.step .init) hdeclared
    (hinit.within (hinit.folds.add (hfl nofun) _ _) (bindings_declare _ name)
      (bindings_add _ _ _)).imp fun hled => ⟨hfl nofun, hled⟩
  | .block body, s, s', _, fl, h, hs, _ => by
    unfold walkStmt readStmt Stmt.Led
    by_cases hdirect : R.direct body = true
    · have hbody := follows_readStmts R body (h.step .block) hs.fold
        fun st hst hdeclared => absurd (R.not_declared hdirect st hst) hdeclared
      rw [hdirect, if_pos rfl]
      exact hbody.within hbody.folds.unfold rfl rfl
    · have hbody := follows_readStmts R body (h.step .block) (hs.enter [])
        fun _ _ _ => unfolded_kept fl
      rw [Bool.eq_false_iff.mpr hdirect, if_neg Bool.false_ne_true]
      exact hbody.within hbody.folds.leave rfl rfl
  | .branch cond thenDo none, _, _, _, _, h, hs, _ =>
    have hcond := follows_walkExpr cond (h.step .condition) hs
    hcond.seq (follows_readStmt R thenDo (h.step .thenDo) hcond.folds
      fun hdeclared => absurd h.proper.2.2 hdeclared)
  | .branch cond thenDo (some elseDo), _, _, _, _, h, hs, _ =>
    have hcond := follows_walkExpr cond (h.step .condition) hs
    have hthen := follows_readStmt R thenDo (h.step .thenDo) hcond.folds
      fun hdeclared => absurd h.proper.2.1.2 hdeclared
    (hcond.seq hthen).seq (follows_readStmt R elseDo (h.step .elseDo) hthen.folds
      fun hdeclared => absurd h.proper.2.2.2 hdeclared)
  | .loop cond body, _, _, _, _, h, hs, _ =>
    have hcond := follows_walkExpr cond (h.step .loopCondition) hs
    hcond.seq (follows_readStmt R body (h.step .loopBody) hcond.folds
      fun hdeclared => absurd h.proper.2.2 hdeclared)
  | .function decl, _, _, _, _, h, hs, hfl => by
    obtain ⟨name, params, body⟩ := decl
    have hbody := follows_readFunction R .function ⟨name, params, body⟩ (h.step .function)
      (hs.introduce (hfl nofun) name)
    exact (hbody.within hbody.folds (bindings_introduce _ name) rfl).imp fun hled => ⟨hfl nofun, hled⟩
  | .ret keyword none, _, _, _, _, _, hs, _ =>
    (Follows.refl hs trivial).within (hs.checkReturn keyword false) rfl
      (bindings_checkReturn _ keyword false)
  | .ret keyword (some value), _, _, _, _, h, hs, _ =>
    have hvalue := follows_walkExpr value (h.step .returned) (hs.checkReturn keyword true)
    hvalue.within hvalue.folds (bindings_checkReturn _ keyword true) rfl
  | .classDecl ⟨name, superclass, interface, methods⟩, s, s', _, fl, h, hs, hfl => by
    have henter : Follows given D' _ _ s' _ _ := follows_enterClass h hs (hfl nofun)
    have hmethods := follows_readMethods R methods (h.step .classMethods) henter.folds
    refine ((henter.seq hmethods).within ?_ rfl ?_).imp fun hled => ⟨hfl nofun, hled⟩
    · have hleave := hmethods.folds.leaveClass.setClasses s.classes
      unfold walkStmt walkClass readStmt readClass
      rw [← hs.classes]
      exact hleave
    · cases superclass <;> rfl
termination_by structural st => st

theorem follows_readFunction (R : Reading) (context : FunctionContext) : ∀ (decl : FunctionDecl)
    {s s' : State} {ns : List (List String)} {fl : List Bool},
    Sound D ⟨.function context decl, s, ns⟩ → s.Folds fl s' →
    Follows given D' (decl.Led R (.ofDistances given D D') fl) fl s' (walkFunction context decl s)
      (readFunction R context decl s')
  | ⟨name, params, body⟩, s, s', _, fl, h, hs => by
    have hbody := follows_readStmts R body (h.step .body) (hs.enterFunction context params)
      fun _ _ _ => unfolded_kept fl
    refine hbody.within ?_ (bindings_foldl_introduce params _) rfl
    have hleave := hbody.folds.leave.setFunction s.function
    unfold walkFunction readFunction
    rw [← hs.function]
    exact hleave
termination_by structural decl => decl

theorem follows_readMethods (R : Reading) : ∀ (ds : List FunctionDecl) {s s' : State}
    {ns : List (List String)} {fl : List Bool}, Sound D ⟨.methods ds, s, ns⟩ → s.Folds fl s' →
    Follows given D' (FunctionDecl.LedAll R (.ofDistances given D D') ds fl) fl s'
      (walkMethods ds s) (readMethods R ds s')
  | [], _, _, _, _, _, hs => .refl hs trivial
  | d :: ds, _, _, _, _, h, hs =>
    have hfirst := follows_readFunction R (methodContext d.name) d (h.step .firstMethod) hs
    hfirst.seq (follows_readMethods R ds (h.step .otherMethods) hfirst.folds)
termination_by structural ds => ds

theorem follows_readStmts (R : Reading) : ∀ (ss : List Stmt) {s s' : State}
    {ns : List (List String)} {fl : List Bool}, Sound D ⟨.stmts ss, s, ns⟩ → s.Folds fl s' →
    (∀ st ∈ ss, st.declared? ≠ none → Unfolded fl) →
    Follows given D' (Stmt.LedAll R (.ofDistances given D D') ss fl) fl s' (walkStmts ss s)
      (readStmts R ss s')
  | [], _, _, _, _, _, hs, _ => .refl hs trivial
  | st :: ss, _, _, _, _, h, hs, hfl =>
    have hfirst := follows_readStmt R st (h.step .firstStmt) hs (hfl st List.mem_cons_self)
    hfirst.seq (follows_readStmts R ss (h.step .otherStmts) hfirst.folds
      fun st' hst' => hfl st' (List.mem_cons_of_mem _ hst'))
termination_by structural ss => ss

end

/-- Both walks over a program without errors. -/
theorem follows_of_resolved (R : Reading) {program : List Stmt} (h : Resolved D program) :
    Follows given D' (Stmt.LedAll R (.ofDistances given D D') program []) [] {}
      (walkStmts program {}) (readStmts R program {}) :=
  follows_readStmts R program h.sound ⟨.nil, rfl, rfl, rfl, rfl⟩ fun _ _ _ => nofun

/-- **A program without errors has none when its turns are read**, and the same references are bound. -/
theorem errors_of_resolved (R : Reading) {program : List Stmt} (h : Resolved D program) :
    (readStmts R program {}).errors = #[] ∧
      (walkStmts program {}).bindings.toList.map (·.ref) =
        (readStmts R program {}).bindings.toList.map (·.ref) := by
  have hfollows : Follows (fun _ => True) D _ _ _ _ _ := follows_of_resolved R h
  exact ⟨hfollows.folds.errors.symm.trans h.clean.errors, hfollows.folds.refs⟩

/-- **A program without errors is led**, once the distances of both walks are known. -/
theorem led_of_resolved (R : Reading) {program : List Stmt} (h : Resolved D program)
    (hb : AllBound given D' (readStmts R program {})) :
    Stmt.LedAll R (.ofDistances given D D') program [] :=
  ((follows_of_resolved R h).led hb).2

end

end Scope

end Scriptlet
