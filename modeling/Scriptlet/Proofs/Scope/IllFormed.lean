import Scriptlet.Proofs.Scope.Walk
import Mathlib.Logic.Relation

/-!
# Ill-formed programs

What is wrong with the names of a program, said of its tree alone. A `Place` is a node of the tree
with all the nodes around it, innermost first. Each rule looks at a node and at what is around it: the
nearest function, the nearest class, the scopes it is in (`Wrong`). A program is ill-formed if some
place of it breaks a rule.

* `Wrong`, `IllFormed`: the rules.
* `functionContextIn`, `classContextIn`: what is around a place, in the terms of the walk.

Results:
* `faultless_iff`: nothing is wrong in a node iff the node is right and so are its parts.
-/

namespace Scriptlet

/-- The names a statement declares in the scope it stands in. -/
def Stmt.names : Stmt → List String
  | .declare name _ => [name.lexeme]
  | .function ⟨name, _, _⟩ => [name.lexeme]
  | .classDecl ⟨name, _, _, _⟩ => [name.lexeme]
  | .branch _ thenDo none => thenDo.names
  | .branch _ thenDo (some elseDo) => thenDo.names ++ elseDo.names
  | .loop _ body => body.names
  | _ => []
termination_by structural st => st

/-- The names that statements of one scope declare in it. -/
def Stmt.namesAll (ss : List Stmt) : List String := ss.flatMap Stmt.names

theorem Stmt.namesAll_cons (st : Stmt) (ss : List Stmt) :
    Stmt.namesAll (st :: ss) = st.names ++ Stmt.namesAll ss := List.flatMap_cons

/-- The names in the scope of a function: its parameters and what its body declares. -/
def FunctionDecl.names (d : FunctionDecl) : List String :=
  d.params.map (·.lexeme) ++ Stmt.namesAll d.body

namespace Scope

open Relation (ReflTransGen)

/-! ## Places -/

/-- A node of a tree. -/
inductive Node where
  | expr (e : Expr)
  | stmt (st : Stmt)
  | method (decl : FunctionDecl)

namespace Node

/-- The nodes that stand directly in a node. -/
def parts : Node → List Node
  | expr (.literal _) => []
  | expr (.group inner) => [expr inner]
  | expr (.unary _ operand) => [expr operand]
  | expr (.binary left _ right) => [expr left, expr right]
  | expr (.logical left _ right) => [expr left, expr right]
  | expr (.var _ _) => []
  | expr (.assign _ _ value) => [expr value]
  | expr (.call callee _ args) => expr callee :: args.map expr
  | expr (.get object _) => [expr object]
  | expr (.set object _ value) => [expr object, expr value]
  | expr (.this _ _) => []
  | expr (.super _ _ _) => []
  | stmt (.expr e) => [expr e]
  | stmt (.declare _ init) => init.toList.map expr
  | stmt (.block body) => body.map stmt
  | stmt (.branch cond thenDo elseDo) => expr cond :: stmt thenDo :: elseDo.toList.map stmt
  | stmt (.loop cond body) => [expr cond, stmt body]
  | stmt (.function decl) => decl.body.map stmt
  | stmt (.ret _ value) => value.toList.map expr
  | stmt (.classDecl decl) => decl.methods.map method
  | method decl => decl.body.map stmt

def isFunction : Node → Bool
  | stmt (.function _) | method _ => true
  | _ => false

def class? : Node → Option ClassDecl
  | stmt (.classDecl decl) => some decl
  | _ => none

/-- The node has a scope for what is declared in it: a block, a function or a method. -/
def isScope : Node → Bool
  | stmt (.block _) => true
  | n => n.isFunction

def isVariable : Node → Bool
  | stmt (.declare _ _) => true
  | _ => false

end Node

/-- A node with the nodes around it, innermost first. -/
structure Place where
  node : Node
  around : List Node

/-- From a place to one directly in it. -/
inductive Deeper : Place → Place → Prop
  | part {n m : Node} {ns : List Node} (h : m ∈ n.parts) : Deeper ⟨n, ns⟩ ⟨m, n :: ns⟩

/-- The innermost function or method of those around a place. -/
def functionAround (ns : List Node) : Option Node := ns.find? Node.isFunction

/-- The innermost class. -/
def classAround (ns : List Node) : Option ClassDecl := ns.findSome? Node.class?

/-- A local variable of this name is being initialized. -/
def Initializes (ns : List Node) (x : String) : Prop :=
  ∃ inner name init outer, ns = inner ++ .stmt (.declare name init) :: outer ∧ name.lexeme = x ∧
    outer.any Node.isScope = true

/-- **What can be wrong at a place.** -/
inductive Wrong : Place → Prop
  /-- A `return` in no function or method. -/
  | topLevelReturn {keyword value ns} (h : functionAround ns = none) :
    Wrong ⟨.stmt (.ret keyword value), ns⟩
  /-- A `return` that belongs to a constructor. -/
  | constructorReturn {keyword value ns d} (h : functionAround ns = some (.method d))
      (hd : d.name.lexeme = constructorName) : Wrong ⟨.stmt (.ret keyword value), ns⟩
  | thisOutsideClass {ref keyword ns} (h : classAround ns = none) :
    Wrong ⟨.expr (.this ref keyword), ns⟩
  | superOutsideClass {ref keyword method ns} (h : classAround ns = none) :
    Wrong ⟨.expr (.super ref keyword method), ns⟩
  /-- A `super` whose class has no superclass. -/
  | superWithoutSuperclass {ref keyword method ns d} (h : classAround ns = some d)
      (hd : d.superclass = none) : Wrong ⟨.expr (.super ref keyword method), ns⟩
  | inheritsFromItself {d parent ns} (h : d.superclass = some parent)
      (hname : parent.name.lexeme = d.name.lexeme) : Wrong ⟨.stmt (.classDecl d), ns⟩
  /-- Two declarations of one name in a block. -/
  | twiceInBlock {body ns} (h : ¬ (Stmt.namesAll body).Nodup) : Wrong ⟨.stmt (.block body), ns⟩
  /-- Two declarations of one name among the parameters and in the body of a function. -/
  | twiceInFunction {d ns} (h : ¬ d.names.Nodup) : Wrong ⟨.stmt (.function d), ns⟩
  | twiceInMethod {d ns} (h : ¬ d.names.Nodup) : Wrong ⟨.method d, ns⟩
  /-- A variable that is read in its own initializer. -/
  | ownInitializer {ref name ns} (h : Initializes ns name.lexeme) :
    Wrong ⟨.expr (.var ref name), ns⟩

/-- **Something is wrong at some place of the program.** -/
def IllFormed (program : List Stmt) : Prop :=
  ∃ st ∈ program, ∃ p, ReflTransGen Deeper ⟨.stmt st, []⟩ p ∧ Wrong p

/-- Nothing is wrong at the place or in it. -/
def Place.Faultless (p : Place) : Prop := ∀ q, ReflTransGen Deeper p q → ¬ Wrong q

theorem not_illFormed_iff (program : List Stmt) :
    ¬ IllFormed program ↔ ∀ st ∈ program, Place.Faultless ⟨.stmt st, []⟩ := by
  simp only [IllFormed, Place.Faultless, not_exists, not_and]

/-- **Nothing is wrong in a node iff the node is right and so are its parts.** -/
theorem faultless_iff {n : Node} {ns : List Node} :
    Place.Faultless ⟨n, ns⟩ ↔
      ¬ Wrong ⟨n, ns⟩ ∧ ∀ m ∈ n.parts, Place.Faultless ⟨m, n :: ns⟩ := by
  constructor
  · intro h
    exact ⟨h _ .refl, fun m hm q hq => h q (hq.head (.part hm))⟩
  · rintro ⟨hn, hparts⟩ q hq
    rcases hq.cases_head with rfl | ⟨_, ⟨hm⟩, hq⟩
    · exact hn
    · exact hparts _ hm q hq

section
variable {ns : List Node}

/-- Where nothing is wrong with the node itself, it is all about the parts. -/
theorem faultless_of_parts (n : Node) (h : ∀ ns, ¬ Wrong ⟨n, ns⟩) :
    Place.Faultless ⟨n, ns⟩ ↔ ∀ m ∈ n.parts, Place.Faultless ⟨m, n :: ns⟩ := by
  rw [faultless_iff]
  exact and_iff_right (h ns)

theorem faultless_block {body : List Stmt} :
    Place.Faultless ⟨.stmt (.block body), ns⟩ ↔
      (∀ st ∈ body, Place.Faultless ⟨.stmt st, .stmt (.block body) :: ns⟩) ∧
        (Stmt.namesAll body).Nodup := by
  have hwrong : ¬ Wrong ⟨.stmt (.block body), ns⟩ ↔ (Stmt.namesAll body).Nodup :=
    not_iff_comm.mp ⟨.twiceInBlock, fun | .twiceInBlock h => h⟩
  rw [faultless_iff, hwrong, Node.parts, List.forall_mem_map, and_comm]

theorem faultless_function {d : FunctionDecl} :
    Place.Faultless ⟨.stmt (.function d), ns⟩ ↔
      (∀ st ∈ d.body, Place.Faultless ⟨.stmt st, .stmt (.function d) :: ns⟩) ∧ d.names.Nodup := by
  have hwrong : ¬ Wrong ⟨.stmt (.function d), ns⟩ ↔ d.names.Nodup :=
    not_iff_comm.mp ⟨.twiceInFunction, fun | .twiceInFunction h => h⟩
  rw [faultless_iff, hwrong, Node.parts, List.forall_mem_map, and_comm]

theorem faultless_method {d : FunctionDecl} :
    Place.Faultless ⟨.method d, ns⟩ ↔
      (∀ st ∈ d.body, Place.Faultless ⟨.stmt st, .method d :: ns⟩) ∧ d.names.Nodup := by
  have hwrong : ¬ Wrong ⟨.method d, ns⟩ ↔ d.names.Nodup :=
    not_iff_comm.mp ⟨.twiceInMethod, fun | .twiceInMethod h => h⟩
  rw [faultless_iff, hwrong, Node.parts, List.forall_mem_map, and_comm]

theorem faultless_class {d : ClassDecl} :
    Place.Faultless ⟨.stmt (.classDecl d), ns⟩ ↔
      (∀ parent ∈ d.superclass, parent.name.lexeme ≠ d.name.lexeme) ∧
        ∀ m ∈ d.methods, Place.Faultless ⟨.method m, .stmt (.classDecl d) :: ns⟩ := by
  have hwrong : ¬ Wrong ⟨.stmt (.classDecl d), ns⟩ ↔
      ∀ parent ∈ d.superclass, parent.name.lexeme ≠ d.name.lexeme :=
    ⟨fun h parent hparent hname => h (.inheritsFromItself hparent hname),
      fun h => fun | .inheritsFromItself hparent hname => h _ hparent hname⟩
  rw [faultless_iff, hwrong, Node.parts, List.forall_mem_map]

end

/-! ## What is around a place -/

/-- What kind of function the nodes around a place make it stand in. -/
def functionContextIn (ns : List Node) : FunctionContext :=
  match functionAround ns with
  | none => .none
  | some (.method d) => methodContext d.name
  | some _ => .function

/-- What kind of class. -/
def classContextIn (ns : List Node) : ClassContext :=
  match classAround ns with
  | none => .none
  | some d => classContext d.superclass

/-- No variable is being initialized. -/
def NoInitializer (ns : List Node) : Prop := ∀ n ∈ ns, n.isVariable = false

section
variable {n : Node} {ns : List Node}

theorem functionContextIn_cons (h : n.isFunction = false) :
    functionContextIn (n :: ns) = functionContextIn ns := by
  simp [functionContextIn, functionAround, h]

theorem classContextIn_cons (h : n.class? = none) :
    classContextIn (n :: ns) = classContextIn ns := by
  simp [classContextIn, classAround, h]

theorem classContextIn_eq_none : classContextIn ns = .none ↔ classAround ns = none := by
  unfold classContextIn
  cases classAround ns with
  | none => simp
  | some d => cases hs : d.superclass <;> simp [hs, classContext]

theorem classContextIn_eq_derived :
    classContextIn ns = .derived ↔ ∃ d, classAround ns = some d ∧ d.superclass.isSome = true := by
  unfold classContextIn
  cases classAround ns with
  | none => simp
  | some d => cases hs : d.superclass <;> simp [hs, classContext]

theorem NoInitializer.cons (h : NoInitializer ns) (hn : n.isVariable = false) : NoInitializer (n :: ns) :=
  List.forall_mem_cons.mpr ⟨hn, h⟩

theorem NoInitializer.not_initializes (h : NoInitializer ns) (x : String) : ¬ Initializes ns x := by
  rintro ⟨inner, name, init, outer, rfl, -⟩
  cases h (.stmt (.declare name init)) (by simp)

/-- Only a declaration initializes. -/
theorem initializes_cons (hn : n.isVariable = false) (x : String) :
    Initializes (n :: ns) x ↔ Initializes ns x := by
  constructor
  · rintro ⟨inner, name, init, outer, heq, hx, hlocal⟩
    cases inner with
    | nil =>
      cases heq
      cases hn
    | cons m inner => exact ⟨inner, name, init, outer, (List.cons.inj heq).2, hx, hlocal⟩
  · rintro ⟨inner, name, init, outer, rfl, hx, hlocal⟩
    exact ⟨n :: inner, name, init, outer, rfl, hx, hlocal⟩

theorem NoInitializer.initializes_declare (h : NoInitializer ns) (name : Token) (init : Option Expr)
    (x : String) :
    Initializes (.stmt (.declare name init) :: ns) x ↔
      name.lexeme = x ∧ ns.any Node.isScope = true := by
  constructor
  · rintro ⟨inner, name', init', outer, heq, hx, hlocal⟩
    cases inner with
    | nil =>
      cases heq
      exact ⟨hx, hlocal⟩
    | cons m inner => exact (h.not_initializes x ⟨inner, name', init', outer,
        (List.cons.inj heq).2, hx, hlocal⟩).elim
  · rintro ⟨hx, hlocal⟩
    exact ⟨[], name, init, ns, rfl, hx, hlocal⟩

end

end Scope

end Scriptlet
