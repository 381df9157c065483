import Scriptlet.Proofs.Scope.Visit

/-!
# Declared before use

A local scope is in order if no name is referred to in it, at any depth, before the scope declares
the name: before the end of its initializer for a variable, before the name itself for a function, a
class or a parameter. Nothing is asked of the global scope.

Then at every reference the scopes that declare its name at all have declared it already (`Timely`),
so that what a scope will declare later cannot come between a reference and its binding.

Results:
* `Stmt.Ordered`: every local scope of a statement is in order.
* `Visits.timely`: **no scope declares the name of a reference only later.**
-/

namespace Scriptlet

mutual

/-- The names an expression refers to. With `super` goes the receiver. -/
def Expr.mentions : Expr → List String
  | .literal _ => []
  | .unary _ operand => operand.mentions
  | .binary left _ right => left.mentions ++ right.mentions
  | .logical left _ right => left.mentions ++ right.mentions
  | .group inner => inner.mentions
  | .var _ name => [name.lexeme]
  | .assign _ name value => value.mentions ++ [name.lexeme]
  | .call callee _ args => callee.mentions ++ Expr.mentionsAll args
  | .get object _ => object.mentions
  | .set object _ value => object.mentions ++ value.mentions
  | .this _ keyword => [keyword.lexeme]
  | .super _ keyword _ => [keyword.lexeme, "this"]
termination_by structural e => e

def Expr.mentionsAll : List Expr → List String
  | [] => []
  | e :: es => e.mentions ++ Expr.mentionsAll es
termination_by structural es => es

end

mutual

/-- The names a statement refers to, at any depth. -/
def Stmt.mentions : Stmt → List String
  | .expr e => e.mentions
  | .declare _ none => []
  | .declare _ (some init) => init.mentions
  | .block body => Stmt.mentionsAll body
  | .branch cond thenDo none => cond.mentions ++ thenDo.mentions
  | .branch cond thenDo (some elseDo) => cond.mentions ++ thenDo.mentions ++ elseDo.mentions
  | .loop cond body => cond.mentions ++ body.mentions
  | .function decl => decl.mentions
  | .ret _ none => []
  | .ret _ (some value) => value.mentions
  | .classDecl decl => decl.mentions
termination_by structural s => s

def FunctionDecl.mentions : FunctionDecl → List String
  | ⟨_, _, body⟩ => Stmt.mentionsAll body
termination_by structural decl => decl

def ClassDecl.mentions : ClassDecl → List String
  | ⟨_, superclass, _, methods⟩ =>
    (superclass.map (·.name.lexeme)).toList ++ FunctionDecl.mentionsAll methods
termination_by structural decl => decl

def Stmt.mentionsAll : List Stmt → List String
  | [] => []
  | s :: ss => s.mentions ++ Stmt.mentionsAll ss
termination_by structural ss => ss

def FunctionDecl.mentionsAll : List FunctionDecl → List String
  | [] => []
  | d :: ds => d.mentions ++ FunctionDecl.mentionsAll ds
termination_by structural ds => ds

end

/-- The name that a statement declares at its end. -/
def Stmt.declaredLast : Stmt → List String
  | .declare name _ => [name.lexeme]
  | _ => []

/-- **In a scope with these statements, no name is referred to before it is declared.** -/
def InOrder : List Stmt → Prop
  | [] => True
  | st :: ss => (∀ x ∈ st.mentions, x ∉ st.declaredLast ++ Scope.declaredIn ss) ∧ InOrder ss

mutual

/-- **Every scope that the statement opens, at any depth, is in order.** -/
def Stmt.Ordered : Stmt → Prop
  | .expr _ => True
  | .declare _ _ => True
  | .block body => InOrder body ∧ Stmt.OrderedAll body
  | .branch _ thenDo none => thenDo.Ordered
  | .branch _ thenDo (some elseDo) => thenDo.Ordered ∧ elseDo.Ordered
  | .loop _ body => body.Ordered
  | .function decl => decl.Ordered
  | .ret _ _ => True
  | .classDecl decl => decl.Ordered
termination_by structural s => s

def FunctionDecl.Ordered : FunctionDecl → Prop
  | ⟨_, _, body⟩ => InOrder body ∧ Stmt.OrderedAll body
termination_by structural decl => decl

def ClassDecl.Ordered : ClassDecl → Prop
  | ⟨_, _, _, methods⟩ => FunctionDecl.OrderedAll methods
termination_by structural decl => decl

def Stmt.OrderedAll : List Stmt → Prop
  | [] => True
  | s :: ss => s.Ordered ∧ Stmt.OrderedAll ss
termination_by structural ss => ss

def FunctionDecl.OrderedAll : List FunctionDecl → Prop
  | [] => True
  | d :: ds => d.Ordered ∧ FunctionDecl.OrderedAll ds
termination_by structural ds => ds

end

instance decidableInOrder : (ss : List Stmt) → Decidable (InOrder ss)
  | [] => .isTrue trivial
  | st :: ss =>
    have := decidableInOrder ss
    inferInstanceAs (Decidable ((∀ x ∈ st.mentions, x ∉ st.declaredLast ++ Scope.declaredIn ss) ∧
      InOrder ss))

mutual

def Stmt.decidableOrdered : (st : Stmt) → Decidable st.Ordered
  | .expr _ => .isTrue trivial
  | .declare _ _ => .isTrue trivial
  | .block body =>
    have := Stmt.decidableOrderedAll body
    inferInstanceAs (Decidable (InOrder body ∧ Stmt.OrderedAll body))
  | .branch _ thenDo none => thenDo.decidableOrdered
  | .branch _ thenDo (some elseDo) =>
    have := thenDo.decidableOrdered
    have := elseDo.decidableOrdered
    inferInstanceAs (Decidable (thenDo.Ordered ∧ elseDo.Ordered))
  | .loop _ body => body.decidableOrdered
  | .function decl => decl.decidableOrdered
  | .ret _ _ => .isTrue trivial
  | .classDecl decl => decl.decidableOrdered
termination_by structural st => st

def FunctionDecl.decidableOrdered : (decl : FunctionDecl) → Decidable decl.Ordered
  | ⟨_, _, body⟩ =>
    have := Stmt.decidableOrderedAll body
    inferInstanceAs (Decidable (InOrder body ∧ Stmt.OrderedAll body))
termination_by structural decl => decl

def ClassDecl.decidableOrdered : (decl : ClassDecl) → Decidable decl.Ordered
  | ⟨_, _, _, methods⟩ => FunctionDecl.decidableOrderedAll methods
termination_by structural decl => decl

def Stmt.decidableOrderedAll : (ss : List Stmt) → Decidable (Stmt.OrderedAll ss)
  | [] => .isTrue trivial
  | st :: ss =>
    have := st.decidableOrdered
    have := Stmt.decidableOrderedAll ss
    inferInstanceAs (Decidable (st.Ordered ∧ Stmt.OrderedAll ss))
termination_by structural ss => ss

def FunctionDecl.decidableOrderedAll :
    (ds : List FunctionDecl) → Decidable (FunctionDecl.OrderedAll ds)
  | [] => .isTrue trivial
  | d :: ds =>
    have := d.decidableOrdered
    have := FunctionDecl.decidableOrderedAll ds
    inferInstanceAs (Decidable (d.Ordered ∧ FunctionDecl.OrderedAll ds))
termination_by structural ds => ds

end

instance (ss : List Stmt) : Decidable (Stmt.OrderedAll ss) := Stmt.decidableOrderedAll ss

namespace Scope

open State

namespace Code

/-- The names a part refers to. -/
def mentions : Code → List String
  | expr e => e.mentions
  | exprs es => Expr.mentionsAll es
  | stmt st => st.mentions
  | stmts ss => Stmt.mentionsAll ss
  | function _ decl => decl.mentions
  | methods ds => FunctionDecl.mentionsAll ds

/-- The scopes that a part opens are in order, and so is the one it stands in if that is local. -/
def Ordered (inner : Prop) : Code → Prop
  | expr _ => True
  | exprs _ => True
  | stmt st => st.Ordered
  | stmts ss => (inner → InOrder ss) ∧ Stmt.OrderedAll ss
  | function _ decl => decl.Ordered
  | methods ds => FunctionDecl.OrderedAll ds

/-- The names that a part declares in the innermost scope and may refer to after that. -/
def coming : Code → List String
  | stmt (.function ⟨name, _, _⟩) => [name.lexeme]
  | stmt (.classDecl ⟨name, _, _, _⟩) => [name.lexeme]
  | stmts ss => declaredIn ss
  | _ => []

end Code

/-- A part refers to what the whole refers to. -/
theorem Step.mentions {v w : Visit} (h : Step v w) : w.code.mentions ⊆ v.code.mentions := by
  cases h with
  | @condition c t o s ns => cases o <;> simp [Code.mentions, Stmt.mentions]
  | @thenDo c t o s ns => cases o <;> simp [Code.mentions, Stmt.mentions]
  | _ => simp [Code.mentions, Expr.mentions, Expr.mentionsAll, Stmt.mentions, Stmt.mentionsAll,
      FunctionDecl.mentions, FunctionDecl.mentionsAll, ClassDecl.mentions]

theorem Step.ordered {v w : Visit} (h : Step v w) (hv : v.code.Ordered (v.declared ≠ [])) :
    w.code.Ordered (w.declared ≠ []) := by
  cases h with
  | block => exact ⟨fun _ => hv.1, hv.2⟩
  | @thenDo c t o s ns =>
    cases o with
    | none => exact hv
    | some e => exact hv.1
  | elseDo => exact hv.2
  | loopBody => exact hv
  | function => exact hv
  | classMethods => exact hv
  | body => exact ⟨fun _ => hv.1, hv.2⟩
  | firstMethod => exact hv.1
  | otherMethods => exact hv.2
  | firstStmt => exact hv.2.1
  | otherStmts => exact ⟨fun hlocal => (hv.1 hlocal).2, hv.2.2⟩
  | _ => trivial

/-! ## Settled names -/

/-- **The scopes that declare a name at all have declared it**, but for the innermost if the name is
still coming. -/
def Settled (x : String) (coming : Prop) : List Names → List (List String) → Prop
  | scope :: scopes, names :: declared =>
    (x ∈ names → (scope.lookup x).isSome = true ∨ coming) ∧ Settled x False scopes declared
  | _, _ => True

namespace Settled

variable {x : String} {c c' : Prop} {scopes : List Names} {declared : List (List String)}

theorem mono (h : Settled x c scopes declared) (hc : declared ≠ [] → c → c') :
    Settled x c' scopes declared := by
  cases scopes with
  | nil => cases declared <;> trivial
  | cons scope scopes =>
    cases declared with
    | nil => trivial
    | cons names declared =>
      exact ⟨fun hx => (h.1 hx).imp_right (hc (List.cons_ne_nil _ _)), h.2⟩

/-- A name that is introduced is declared. -/
theorem introduce {s : State} {name : Token} (h : Settled x c s.scopes declared)
    (hc : c → x = name.lexeme ∨ c') : Settled x c' (s.introduce name).scopes declared := by
  rcases introduce_cases s name with ⟨-, h'⟩ | ⟨scope, scope', rest, hs, h', hlookup⟩
  · rw [h']
    cases declared <;> trivial
  · rw [hs] at h
    rw [h']
    cases declared with
    | nil => trivial
    | cons names declared =>
      refine ⟨fun hx => ?_, h.2⟩
      rw [hlookup]
      by_cases hxn : x = name.lexeme
      · simp [hxn]
      · rw [if_neg hxn]
        exact (h.1 hx).imp_right fun hcoming => (hc hcoming).resolve_left hxn

/-- Declaring a name settles no less. -/
theorem declare {s : State} {name : Token} (h : Settled x c s.scopes declared) :
    Settled x c (s.declare name).scopes declared := by
  rcases declare_cases s name with ⟨-, h'⟩ | ⟨scope, scope', rest, hs, h', hlookup, hname, -⟩
  · rw [h']
    cases declared <;> trivial
  · rw [hs] at h
    rw [h']
    cases declared with
    | nil => trivial
    | cons names declared =>
      refine ⟨fun hx => ?_, h.2⟩
      by_cases hxn : x = name.lexeme
      · rw [hxn]
        exact .inl hname
      · rw [hlookup x hxn]
        exact h.1 hx

end Settled

/-- A local variable is new in its scope. -/
theorem Sound.undeclared {D : Distances} {name : Token} {init : Expr} {s : State}
    {ns : List (List String)} (h : Sound D ⟨.stmt (.declare name (some init)), s, ns⟩) :
    ∀ scope ∈ s.scopes.head?, scope.lookup name.lexeme = none := by
  intro scope hscope
  by_contra hdeclared
  have hsome : (scope.lookup name.lexeme).isSome = true := Option.isSome_iff_ne_none.mpr hdeclared
  have hclean : Clean D (s.declare name) :=
    (advance_walkExpr init (s.declare name)).noted.clean (h.step .init).clean
  have herrors := hclean.errors
  cases hs : s.scopes with
  | nil => rw [hs] at hscope; cases hscope
  | cons scope' rest =>
    rw [hs] at hscope
    cases hscope
    simp [State.declare, hs, hsome, State.note] at herrors

/-! ## Timely references -/

/-- **No scope declares a name only after it is referred to.** -/
structure Timely (v : Visit) : Prop where
  ordered : v.code.Ordered (v.declared ≠ [])
  settled : ∀ x ∈ v.code.mentions, Settled x (x ∈ v.code.coming) v.state.scopes v.declared
  readable : ∀ x ∈ v.code.mentions, v.state.isUnreadable x = false

namespace Timely

variable {D : Distances} {v w : Visit}

/-- A part in the same scopes. -/
theorem within (h : Timely v) (hstep : Step v w) (hscopes : w.state.scopes = v.state.scopes)
    (hdeclared : w.declared = v.declared)
    (hcoming : v.declared ≠ [] → ∀ x ∈ w.code.mentions, x ∈ v.code.coming → x ∈ w.code.coming) :
    Timely w := by
  refine ⟨hstep.ordered h.ordered, fun x hx => ?_, fun x hx => ?_⟩
  · rw [hscopes, hdeclared]
    exact (h.settled x (hstep.mentions hx)).mono fun hlocal => hcoming hlocal x hx
  · have := h.readable x (hstep.mentions hx)
    unfold isUnreadable at this ⊢
    rwa [hscopes]

/-- Outside expressions all names can be read. -/
theorem of_sound (h : Timely v) (hw : Sound D w) (hstep : Step v w) (hexpr : w.code.isExpr = false)
    (hsettled : ∀ x ∈ w.code.mentions, Settled x (x ∈ w.code.coming) w.state.scopes w.declared) :
    Timely w := by
  refine ⟨hstep.ordered h.ordered, hsettled, fun x _ => Bool.eq_false_iff.mpr fun hun => ?_⟩
  obtain ⟨scope, hscope, hl⟩ := isUnreadable_iff.mp hun
  exact hw.readable hexpr scope (List.mem_of_mem_head? hscope) x hl

/-- The initializer of a local variable does not refer to it. -/
theorem init {name : Token} {e : Expr} {s : State} {ns : List (List String)}
    (h : Timely ⟨.stmt (.declare name (some e)), s, ns⟩)
    (hv : Sound D ⟨.stmt (.declare name (some e)), s, ns⟩) :
    Timely ⟨.expr e, s.declare name, ns⟩ := by
  refine ⟨trivial, fun x hx => (h.settled x hx).declare, fun x hx => ?_⟩
  refine Bool.eq_false_iff.mpr fun hun => ?_
  obtain ⟨scope', hscope', hl⟩ := isUnreadable_iff.mp hun
  rcases declare_cases s name with ⟨-, h'⟩ | ⟨scope, scope'', rest, hs, h', hlookup, -⟩
  · rw [h'] at hscope'
    cases hscope'
  rw [h'] at hscope'
  cases hscope'
  by_cases hxn : x = name.lexeme
  · -- The scope would have declared the name before, which is an error.
    have hnew := hv.undeclared scope (by rw [hs]; rfl)
    have hsettled := h.settled x hx
    have hnames := hv.names
    have hpending := hv.pending x (by rw [hxn]; exact List.mem_singleton_self _)
    simp only [hs] at hsettled hnames
    obtain ⟨names, declared, -, -, rfl⟩ := List.forall₂_cons_left_iff.mp hnames
    rcases hsettled.1 (hpending names rfl) with hdeclared | hcoming
    · rw [hxn, hnew] at hdeclared
      cases hdeclared
    · cases hcoming
  · rw [hlookup x hxn] at hl
    exact hv.readable rfl scope (by rw [hs]; exact List.mem_cons_self) x hl

theorem firstStmt {st : Stmt} {ss : List Stmt} {s : State} {ns : List (List String)}
    (h : Timely ⟨.stmts (st :: ss), s, ns⟩) : Timely ⟨.stmt st, s, ns⟩ := by
  refine h.within .firstStmt rfl rfl fun hlocal x hx hdeclared => ?_
  have horder := (h.ordered.1 hlocal).1 x hx
  rw [List.mem_append, not_or] at horder
  have hown : x ∈ declaredIn [st] := by
    rw [Code.coming, declaredIn_cons, List.mem_append] at hdeclared
    exact hdeclared.resolve_right horder.2
  match st with
  | .declare name init => exact absurd hown horder.1
  | .function ⟨_, _, _⟩ => exact hown
  | .classDecl ⟨_, _, _, _⟩ => exact hown

theorem otherStmts {st : Stmt} {ss : List Stmt} {s : State} {ns : List (List String)}
    (h : Timely ⟨.stmts (st :: ss), s, ns⟩) (hv : Sound D ⟨.stmts (st :: ss), s, ns⟩) :
    Timely ⟨.stmts ss, walkStmt st s, ns⟩ := by
  refine h.of_sound (hv.step .otherStmts) .otherStmts rfl fun x hx => ?_
  have hsettled := h.settled x (Step.otherStmts.mentions hx)
  have hscopes := scopes_walkStmt st hv.proper.1 s
  simp only [Code.coming] at hsettled ⊢
  rw [declaredIn_cons, List.mem_append] at hsettled
  rw [hscopes]
  cases hname : st.declared? with
  | none =>
    rw [declaredIn_none hname] at hsettled
    exact hsettled.mono fun _ hcoming => hcoming.resolve_left List.not_mem_nil
  | some name =>
    rw [declaredIn_some hname] at hsettled
    exact hsettled.introduce fun hcoming => hcoming.imp_left List.mem_singleton.mp

/-- **A step of the walk leads from timely references to timely references.** -/
theorem step (h : Timely v) (hv : Sound D v) (hstep : Step v w) : Timely w := by
  have hw := hv.step hstep
  have hstep' := hstep
  cases hstep with
  | init => exact h.init hv
  | @block body s ns =>
    refine h.of_sound hw hstep' rfl fun x hx => ⟨fun hmem => .inr hmem, ?_⟩
    exact (h.settled x hx).mono fun _ => nofun
  | @function d s ns =>
    obtain ⟨name, params, body⟩ := d
    refine h.of_sound hw hstep' rfl fun x hx => ?_
    exact (h.settled x hx).introduce fun hcoming => .inl (List.mem_singleton.mp hcoming)
  | @classMethods name superclass interface ms s ns =>
    refine h.of_sound hw hstep' rfl fun x hx => ?_
    have hsettled : Settled x False (s.introduce name).scopes ns :=
      (h.settled x (hstep'.mentions hx)).introduce fun hcoming =>
        .inl (List.mem_singleton.mp hcoming)
    simp only [scopes_enterClass]
    have declares (y : String) (hy : x ∈ [y]) : (List.lookup x [(y, true)]).isSome = true := by
      rw [List.mem_singleton.mp hy]
      simp
    cases superclass with
    | none => exact ⟨fun hmem => .inl (declares _ hmem), hsettled⟩
    | some parent =>
      exact ⟨fun hmem => .inl (declares _ hmem), fun hmem => .inl (declares _ hmem), hsettled⟩
  | @body context name params body s ns =>
    refine h.of_sound hw hstep' rfl fun x hx => ?_
    obtain ⟨scope, hscopes, -, hmem⟩ := enterFunction_scopes hv.proper.2.1 context s
    simp only [hscopes]
    refine ⟨fun hnames => ?_, (h.settled x hx).mono fun _ => nofun⟩
    rcases List.mem_append.mp hnames with hparam | hdeclared
    · exact .inl ((hmem x).mpr hparam)
    · exact .inr hdeclared
  | firstStmt => exact h.firstStmt
  | otherStmts => exact h.otherStmts hv
  | @elseDo c t e s ns =>
    refine h.within hstep' ?_ rfl fun _ _ _ => nofun
    simp only
    rw [scopes_walkStmt t hv.proper.2.1.1, hv.proper.2.1.2]
    exact scopes_walkExpr c s
  | @otherMethods d ds s ns =>
    exact h.within hstep' (advance_walkFunction _ d s).2 rfl fun _ _ _ => nofun
  | @returned k e s ns =>
    exact h.within hstep' (scopes_checkReturn s k true) rfl fun _ _ _ => nofun
  | _ => exact h.within hstep' (by simp [scopes_walkExpr]) rfl fun _ _ _ => nofun

end Timely

/-- **At a reference of a program in order, the scopes that declare its name have done so.** -/
theorem Visits.timely {D : Distances} {program : List Stmt} {v : Visit} (hv : Visits program v)
    (h : Resolved D program) (horder : Stmt.OrderedAll program) : Timely v := by
  induction hv with
  | refl => exact ⟨⟨fun hlocal => absurd rfl hlocal, horder⟩, fun _ _ => trivial, fun _ _ => rfl⟩
  | tail hv hstep ih => exact ih.step (Visits.sound hv h) hstep

end Scope

end Scriptlet
