import Scriptlet.Syntax.Basic

/-!
# Printed syntax trees

Trees in parenthesised form with the operator first, one top-level statement a line.
-/

namespace Scriptlet

def Literal.tree : Literal → String
  | number value => value.treeText
  | string value => value
  | bool value => if value then "true" else "false"
  | null => "null"

mutual

/-- The printed form of an expression. -/
def Expr.tree : Expr → String
  | .literal value => value.tree
  | .unary op operand => "(" ++ op.lexeme ++ " " ++ operand.tree ++ ")"
  | .binary left op right => "(" ++ op.lexeme ++ " " ++ left.tree ++ " " ++ right.tree ++ ")"
  | .logical left op right => "(" ++ op.lexeme ++ " " ++ left.tree ++ " " ++ right.tree ++ ")"
  | .group inner => "(group " ++ inner.tree ++ ")"
  | .var _ name => name.lexeme
  | .assign _ name value => "(= " ++ name.lexeme ++ " " ++ value.tree ++ ")"
  | .call callee _ args => "(call " ++ callee.tree ++ Expr.trees args ++ ")"
  | .get object name => "(. " ++ object.tree ++ " " ++ name.lexeme ++ ")"
  | .set object name value =>
    "(= (. " ++ object.tree ++ " " ++ name.lexeme ++ ") " ++ value.tree ++ ")"
  | .this _ _ => "this"
  | .super _ _ method => "(super " ++ method.lexeme ++ ")"
termination_by structural e => e

/-- Expressions, each after a blank. -/
def Expr.trees : List Expr → String
  | [] => ""
  | e :: es => " " ++ e.tree ++ Expr.trees es
termination_by structural es => es

end

mutual

/-- The printed form of a statement. -/
def Stmt.tree : Stmt → String
  | .expr e => "(; " ++ e.tree ++ ")"
  | .declare name none => "(let " ++ name.lexeme ++ ")"
  | .declare name (some init) => "(let " ++ name.lexeme ++ " " ++ init.tree ++ ")"
  | .block body => "(block" ++ Stmt.trees body ++ ")"
  | .branch cond thenDo none => "(if " ++ cond.tree ++ " " ++ thenDo.tree ++ ")"
  | .branch cond thenDo (some elseDo) =>
    "(if " ++ cond.tree ++ " " ++ thenDo.tree ++ " " ++ elseDo.tree ++ ")"
  | .loop cond body => "(while " ++ cond.tree ++ " " ++ body.tree ++ ")"
  | .function decl => "(function " ++ decl.tree ++ ")"
  | .ret _ none => "(return)"
  | .ret _ (some value) => "(return " ++ value.tree ++ ")"
  | .classDecl decl => decl.tree
termination_by structural s => s

/-- Name, parameters and body of a function. -/
def FunctionDecl.tree : FunctionDecl → String
  | ⟨name, params, body⟩ =>
    name.lexeme ++ " (" ++ " ".intercalate (params.map (·.lexeme)) ++ ")" ++ Stmt.trees body
termination_by structural decl => decl

/-- The printed form of a class. -/
def ClassDecl.tree : ClassDecl → String
  | ⟨name, superclass, interface, methods⟩ =>
    "(class " ++ name.lexeme
      ++ (match superclass with
          | some s => " < " ++ s.name.lexeme
          | none => "")
      ++ (match interface with
          | some i => " : " ++ i.lexeme
          | none => "")
      ++ FunctionDecl.trees methods ++ ")"
termination_by structural decl => decl

/-- Statements, each after a blank. -/
def Stmt.trees : List Stmt → String
  | [] => ""
  | s :: ss => " " ++ s.tree ++ Stmt.trees ss
termination_by structural ss => ss

/-- Methods, each after a blank. -/
def FunctionDecl.trees : List FunctionDecl → String
  | [] => ""
  | d :: ds => " (method " ++ d.tree ++ ")" ++ FunctionDecl.trees ds
termination_by structural ds => ds

end

/-- A whole program, one statement a line. -/
def programTree (program : List Stmt) : String := "\n".intercalate (program.map Stmt.tree)

end Scriptlet
