import Scriptlet.Syntax.Basic
import Scriptlet.Diagnostic

/-!
# Scopes

A walk over a program, before it runs, that finds for every reference the scope its name is declared
in, and reports what is wrong with declarations, `return`, `this` and `super`.

Blocks open a scope, a function opens one for its parameters and body, a class opens one for `this`
and, if it has a superclass, one for `super` around it. Names declared outside all scopes are global
and may be declared again. The *distance* of a reference is the number of scopes between it and the
one that declares its name; a reference whose name no scope declares has none.

* `resolve`: the bindings and errors of a program, in the order of the walk.
* `State.distance?`: where a name is declared.
-/

namespace Scriptlet

/-- What can be wrong with the names of a program. -/
inductive ScopeFault where
  | ownInitializer
  | alreadyDeclared
  | topLevelReturn
  | constructorReturn
  | constructorReturnValue
  | inheritsFromItself
  | thisOutsideClass
  | superOutsideClass
  | superWithoutSuperclass
deriving DecidableEq

namespace ScopeFault

def message : ScopeFault → String
  | ownInitializer => "Can't read local variable in its own initializer."
  | alreadyDeclared => "Already a variable with this name in this scope."
  | topLevelReturn => "Can't return from top-level code."
  | constructorReturn => "Can't return from a constructor."
  | constructorReturnValue => "Can't return a value from a constructor."
  | inheritsFromItself => "A class can't inherit from itself."
  | thisOutsideClass => "Can't use 'this' outside of a class."
  | superOutsideClass => "Can't use 'super' outside of a class."
  | superWithoutSuperclass => "Can't use 'super' in a class with no superclass."

end ScopeFault

/-- A scope fault and the token it is about. -/
structure ScopeError where
  token : Token
  fault : ScopeFault
deriving DecidableEq

def ScopeError.diagnostic (e : ScopeError) : Diagnostic := .atToken e.token e.fault.message

/-- Where a reference leads: so many scopes outwards, or to a global name. -/
structure Binding where
  ref : RefId
  name : String
  distance : Option Nat
deriving DecidableEq

namespace Scope

/-- What kind of function the walk is in. -/
inductive FunctionContext where
  | none
  | function
  | method
  | constructor
deriving DecidableEq

/-- What kind of class the walk is in. -/
inductive ClassContext where
  | none
  | base
  | derived
deriving DecidableEq

/-- The names a scope declares, latest first, each with whether it may be read already. -/
abbrev Names := List (String × Bool)

/-- The state of the walk. The innermost scope comes first. -/
structure State where
  scopes : List Names := []
  function : FunctionContext := .none
  classes : ClassContext := .none
  bindings : Array Binding := #[]
  errors : Array ScopeError := #[]

namespace State

def note (s : State) (token : Token) (fault : ScopeFault) : State :=
  { s with errors := s.errors.push ⟨token, fault⟩ }

/-- Enters a scope that declares `names`. -/
def enter (s : State) (names : Names) : State := { s with scopes := names :: s.scopes }

/-- Leaves the innermost scope. -/
def leave (s : State) : State := { s with scopes := s.scopes.tail }

/-- Adds an entry to the innermost scope; outside all scopes there is nothing to add to. -/
def add (s : State) (name : String) (readable : Bool) : State :=
  match s.scopes with
  | [] => s
  | scope :: rest => { s with scopes := ((name, readable) :: scope) :: rest }

/-- Declares a name in the innermost scope, where it must be new. It cannot be read yet. -/
def declare (s : State) (name : Token) : State :=
  match s.scopes with
  | [] => s
  | scope :: _ =>
    if (scope.lookup name.lexeme).isSome then s.note name .alreadyDeclared
    else s.add name.lexeme false

/-- Makes a name of the innermost scope readable. -/
def define (s : State) (name : Token) : State := s.add name.lexeme true

/-- Declares a name that is readable at once. -/
def introduce (s : State) (name : Token) : State := (s.declare name).define name

/-- The distance to the innermost scope that declares the name. -/
def distance? (s : State) (name : String) : Option Nat :=
  s.scopes.findIdx? fun scope => (scope.lookup name).isSome

/-- Notes where a reference leads. -/
def bind (s : State) (ref : RefId) (name : Token) : State :=
  { s with bindings := s.bindings.push ⟨ref, name.lexeme, s.distance? name.lexeme⟩ }

/-- The innermost scope declares the name and it cannot be read yet. -/
def isUnreadable (s : State) (name : String) : Bool :=
  match s.scopes with
  | [] => false
  | scope :: _ => scope.lookup name == some false

/-- Notes what is wrong with a `return` at this point. -/
def checkReturn (s : State) (keyword : Token) (hasValue : Bool) : State :=
  match s.function with
  | .none => s.note keyword .topLevelReturn
  | .constructor =>
    s.note keyword (if hasValue then .constructorReturnValue else .constructorReturn)
  | .function | .method => s

/-- Notes what is wrong with a `super` at this point. -/
def checkSuper (s : State) (keyword : Token) : State :=
  match s.classes with
  | .none => s.note keyword .superOutsideClass
  | .base => s.note keyword .superWithoutSuperclass
  | .derived => s

end State

mutual

def walkExpr : Expr → State → State
  | .literal _, s => s
  | .group inner, s => walkExpr inner s
  | .unary _ operand, s => walkExpr operand s
  | .binary left _ right, s => walkExpr right (walkExpr left s)
  | .logical left _ right, s => walkExpr right (walkExpr left s)
  | .var ref name, s =>
    let s := if s.isUnreadable name.lexeme then s.note name .ownInitializer else s
    s.bind ref name
  | .assign ref name value, s => (walkExpr value s).bind ref name
  | .call callee _ args, s => walkExprs args (walkExpr callee s)
  | .get object _, s => walkExpr object s
  | .set object _ value, s => walkExpr object (walkExpr value s)
  | .this ref keyword, s =>
    if s.classes = .none then s.note keyword .thisOutsideClass else s.bind ref keyword
  | .super ref keyword _, s => (s.checkSuper keyword).bind ref keyword
termination_by structural e => e

def walkExprs : List Expr → State → State
  | [], s => s
  | e :: es, s => walkExprs es (walkExpr e s)
termination_by structural es => es

end

/-- The part of a class before its body: its name, its superclass and their scopes. -/
def enterClass (name : Token) (superclass : Option Superclass) (s : State) : State :=
  let s := { s with classes := .base }.introduce name
  let s :=
    match superclass with
    | none => s
    | some parent =>
      let s :=
        if parent.name.lexeme == name.lexeme then s.note parent.name .inheritsFromItself else s
      ({ s with classes := .derived }.bind parent.ref parent.name).enter [("super", true)]
  s.enter [("this", true)]

/-- Leaves the scopes of a class. -/
def leaveClass (superclass : Option Superclass) (s : State) : State :=
  match superclass with
  | none => s.leave
  | some _ => s.leave.leave

/-- What kind of function a method is. -/
def methodContext (name : Token) : FunctionContext :=
  if name.lexeme == constructorName then .constructor else .method

mutual

def walkStmt : Stmt → State → State
  | .expr e, s => walkExpr e s
  | .declare name none, s => s.introduce name
  | .declare name (some init), s => (walkExpr init (s.declare name)).define name
  | .block body, s => (walkStmts body (s.enter [])).leave
  | .branch cond thenDo none, s => walkStmt thenDo (walkExpr cond s)
  | .branch cond thenDo (some elseDo), s => walkStmt elseDo (walkStmt thenDo (walkExpr cond s))
  | .loop cond body, s => walkStmt body (walkExpr cond s)
  | .function decl, s => walkFunction .function decl (s.introduce decl.name)
  | .ret keyword none, s => s.checkReturn keyword false
  | .ret keyword (some value), s => walkExpr value (s.checkReturn keyword true)
  | .classDecl decl, s => walkClass decl s
termination_by structural stmt => stmt

/-- A function: one scope for its parameters and its body. -/
def walkFunction (context : FunctionContext) : FunctionDecl → State → State
  | ⟨_, params, body⟩, s =>
    let outer := s.function
    let s := params.foldl State.introduce ({ s with function := context }.enter [])
    { (walkStmts body s).leave with function := outer }
termination_by structural decl => decl

/-- A class: one scope for `this`, inside one for `super` if there is a superclass. -/
def walkClass : ClassDecl → State → State
  | ⟨name, superclass, _, methods⟩, s =>
    let outer := s.classes
    let s := walkMethods methods (enterClass name superclass s)
    { leaveClass superclass s with classes := outer }
termination_by structural decl => decl

def walkMethods : List FunctionDecl → State → State
  | [], s => s
  | method :: methods, s =>
    walkMethods methods (walkFunction (methodContext method.name) method s)
termination_by structural methods => methods

def walkStmts : List Stmt → State → State
  | [], s => s
  | stmt :: stmts, s => walkStmts stmts (walkStmt stmt s)
termination_by structural stmts => stmts

end

end Scope

/-- Where the references of a program lead, and what is wrong with its names. -/
structure Resolution where
  bindings : Array Binding
  errors : Array ScopeError

/-- Resolves a program. -/
def resolve (program : List Stmt) : Resolution :=
  let s := Scope.walkStmts program {}
  ⟨s.bindings, s.errors⟩

end Scriptlet
