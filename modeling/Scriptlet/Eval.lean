import Scriptlet.Machine

/-!
# Running programs

`eval` computes expressions, `exec` runs statements, `apply` calls values. Every computation takes the
number of steps it is granted and grants one less to those it uses; with enough of them the outcome does
not depend on the number.

A statement ends normally or with `return` and a value, which leaves the blocks and loops around it up
to the call it belongs to. `interpret` runs a whole program; a fault ends it, and what it has done up to
then stays.
-/

namespace Scriptlet

/-- How a statement ends. -/
inductive Flow where
  | normal
  | returned (value : Value)

open Exec

/-- Declares a class: its name is bound to `null` first and to the class at the end. Its methods are made
in a frame that binds `super`, if there is a superclass; that frame is the current one meanwhile. -/
def declareClass (σ : Scoping) (decl : ClassDecl) : Exec Unit := do
  let parent ← match decl.superclass with
    | none => pure none
    | some parent =>
      match ← readRef σ parent.ref parent.name with
      | .cls c => pure (some c)
      | _ => raise parent.name .superclassNotClass
  define decl.name.lexeme .null
  let outer ← currentFrame
  match parent with
  | none => pure ()
  | some c => setFrame (← newFrame [("super", .cls c)] outer)
  let methods ← newMethods (← currentFrame) decl.methods []
  let cls := ⟨← freshId, decl.name.lexeme, parent, methods⟩
  setFrame outer
  assignFrom (← currentFrame) decl.name (.cls cls)

mutual

/-- The value of an expression. -/
def eval (σ : Scoping) : Nat → Expr → Exec Value
  | 0, _ => exhausted
  | n + 1, e =>
    match e with
    | .literal value => pure value.toValue
    | .group inner => eval σ n inner
    | .unary op operand => do ofOperator ((← eval σ n operand).unary op)
    | .binary left op right => do
      let x ← eval σ n left
      let y ← eval σ n right
      ofOperator (Value.binary op x y)
    | .logical left op right => do
      let x ← eval σ n left
      if x.truthy == op.is .pipePipe then return x else eval σ n right
    | .var ref name => readRef σ ref name
    | .assign ref name value => do
      let v ← eval σ n value
      writeRef σ ref name v
      return v
    | .call callee paren args => do
      let f ← eval σ n callee
      let values ← evalAll σ n args
      match f.arity? with
      | none => raise paren .notCallable
      | some arity =>
        if values.length = arity then apply σ n f values paren
        else raise paren (.wrongArity arity values.length)
    | .get object name => do property (← eval σ n object) name
    | .set object name value => do
      match ← eval σ n object with
      | .object i =>
        let v ← eval σ n value
        setField i name.lexeme v
        return v
      | _ => raise name .noFields
    | .this ref keyword => readRef σ ref keyword
    | .super ref keyword method => superMethod σ ref keyword method

/-- The values of expressions, from left to right. -/
def evalAll (σ : Scoping) : Nat → List Expr → Exec (List Value)
  | 0, _ => exhausted
  | _ + 1, [] => pure []
  | n + 1, e :: es => do
    let v ← eval σ n e
    return v :: (← evalAll σ n es)

/-- Calls a value, whatever number of arguments it takes. Calling a class makes an instance and runs the
constructor on it. -/
def apply (σ : Scoping) : Nat → Value → List Value → Token → Exec Value
  | 0, _, _, _ => exhausted
  | n + 1, callee, args, site =>
    match callee with
    | .function f => call σ n f args
    | .native f => callNative f args site
    | .cls c => do
      let i ← newInstance c
      match c.findMethod constructorName with
      | none => return .object i
      | some method =>
        let _ ← call σ n (← bindMethod method i) args
        return .object i
    | _ => raise site .notCallable

/-- Runs the body of a function in a new frame that binds its parameters. -/
def call (σ : Scoping) : Nat → Function → List Value → Exec Value
  | 0, _, _ => exhausted
  | n + 1, f, args => do
    let frame ← newFrame (.ofArguments f.decl.params args) f.frame
    match ← inFrame frame (execAll σ n f.decl.body) with
    | .normal => return .null
    | .returned value => return value

/-- Runs a statement. -/
def exec (σ : Scoping) : Nat → Stmt → Exec Flow
  | 0, _ => exhausted
  | n + 1, stmt =>
    match stmt with
    | .expr e => do
      let _ ← eval σ n e
      return .normal
    | .declare name init => do
      let value ← match init with
        | some e => eval σ n e
        | none => pure .null
      define name.lexeme value
      return .normal
    | .block body => do
      let frame ← newFrame [] (← currentFrame)
      inFrame frame (execAll σ n body)
    | .branch cond thenDo elseDo => do
      if (← eval σ n cond).truthy then exec σ n thenDo
      else
        match elseDo with
        | some stmt => exec σ n stmt
        | none => return .normal
    | .loop cond body => loop σ n cond body
    | .function decl => do
      define decl.name.lexeme (.function (← newFunction decl (← currentFrame)))
      return .normal
    | .ret _ value => do
      match value with
      | some e => return .returned (← eval σ n e)
      | none => return .returned .null
    | .classDecl decl => do
      declareClass σ decl
      return .normal

/-- Runs statements up to the first that returns. -/
def execAll (σ : Scoping) : Nat → List Stmt → Exec Flow
  | 0, _ => exhausted
  | _ + 1, [] => pure .normal
  | n + 1, stmt :: stmts => do
    match ← exec σ n stmt with
    | .normal => execAll σ n stmts
    | .returned value => return .returned value

/-- Runs the body as long as the condition holds. -/
def loop (σ : Scoping) : Nat → Expr → Stmt → Exec Flow
  | 0, _, _ => exhausted
  | n + 1, cond, body => do
    if (← eval σ n cond).truthy then
      match ← exec σ n body with
      | .normal => loop σ n cond body
      | .returned value => return .returned value
    else return .normal

end

/-- Runs a program in which a `return` outside all functions has no effect. -/
def execProgram (σ : Scoping) (steps : Nat) : List Stmt → Exec Unit
  | [] => pure ()
  | stmt :: stmts => do
    let _ ← exec σ steps stmt
    execProgram σ steps stmts

/-- Runs a program. After a fault the current frame is the global one. -/
def interpret (σ : Scoping) (steps : Nat) (program : List Stmt) : Exec Unit := fun m =>
  match execProgram σ steps program m with
  | .fault fault m => .fault fault { m with current := Store.global }
  | result => result

end Scriptlet
