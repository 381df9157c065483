import Scriptlet.Token.Basic

/-!
# Syntax trees

Expressions and statements as the parser builds them. Trees keep the tokens that reports may have to
point at. Every node that refers to a name carries a `RefId` of its own, under which the distance to
the name's scope can be noted without changing the tree.
-/

namespace Scriptlet

/-- The identity of a reference to a name. -/
abbrev RefId := Nat

inductive Literal where
  | number (value : Number)
  | string (value : String)
  | bool (value : Bool)
  | null
deriving DecidableEq

inductive Expr where
  | literal (value : Literal)
  | unary (op : Token) (operand : Expr)
  | binary (left : Expr) (op : Token) (right : Expr)
  /-- The right operand of a logical expression may be left out. -/
  | logical (left : Expr) (op : Token) (right : Expr)
  | group (inner : Expr)
  | var (ref : RefId) (name : Token)
  | assign (ref : RefId) (name : Token) (value : Expr)
  /-- A call with the parenthesis that closes its arguments. -/
  | call (callee : Expr) (paren : Token) (args : List Expr)
  | get (object : Expr) (name : Token)
  | set (object : Expr) (name : Token) (value : Expr)
  | this (ref : RefId) (keyword : Token)
  | super (ref : RefId) (keyword : Token) (method : Token)

/-- The class named after `extends`. -/
structure Superclass where
  ref : RefId
  name : Token

mutual

inductive Stmt where
  | expr (e : Expr)
  /-- A variable, `null` unless initialized. -/
  | declare (name : Token) (init : Option Expr)
  | block (body : List Stmt)
  | branch (cond : Expr) (thenDo : Stmt) (elseDo : Option Stmt)
  | loop (cond : Expr) (body : Stmt)
  | function (decl : FunctionDecl)
  | ret (keyword : Token) (value : Option Expr)
  | classDecl (decl : ClassDecl)

/-- A function or a method of a class. -/
structure FunctionDecl where
  name : Token
  params : List Token
  body : List Stmt

/-- A class. The interface is kept and has no effect. -/
structure ClassDecl where
  name : Token
  superclass : Option Superclass
  interface : Option Token
  methods : List FunctionDecl

end

/-- The method that runs when a class is called. -/
def constructorName : String := "constructor"

end Scriptlet
