import Scriptlet.Syntax.Basic

/-!
# The tokens of a tree

`Expr.Over T`, `Stmt.Over T`: every token that the tree keeps satisfies `T`. With `T` the tokens of a
text, the tree is made of tokens of the text and of nothing else. `Literal.From T`: the value of a
literal is that of such a token.
-/

namespace Scriptlet

/-- A literal that carries a value has it from a token. -/
def Literal.From (T : Token → Prop) : Literal → Prop
  | number value => ∃ t, T t ∧ t.kind = .number value
  | string value => ∃ t, T t ∧ t.kind = .string value
  | bool _ => True
  | null => True

mutual

/-- All tokens of the expression satisfy `T`. -/
def Expr.Over (T : Token → Prop) : Expr → Prop
  | .literal _ => True
  | .unary op operand => T op ∧ operand.Over T
  | .binary left op right => left.Over T ∧ T op ∧ right.Over T
  | .logical left op right => left.Over T ∧ T op ∧ right.Over T
  | .group inner => inner.Over T
  | .var _ name => T name
  | .assign _ name value => T name ∧ value.Over T
  | .call callee paren args => callee.Over T ∧ T paren ∧ Expr.OverAll T args
  | .get object name => object.Over T ∧ T name
  | .set object name value => object.Over T ∧ T name ∧ value.Over T
  | .this _ keyword => T keyword
  | .super _ keyword method => T keyword ∧ T method
termination_by structural e => e

def Expr.OverAll (T : Token → Prop) : List Expr → Prop
  | [] => True
  | e :: es => e.Over T ∧ Expr.OverAll T es
termination_by structural es => es

end

mutual

/-- All tokens of the statement satisfy `T`. -/
def Stmt.Over (T : Token → Prop) : Stmt → Prop
  | .expr e => e.Over T
  | .declare name none => T name
  | .declare name (some init) => T name ∧ init.Over T
  | .block body => Stmt.OverAll T body
  | .branch cond thenDo none => cond.Over T ∧ thenDo.Over T
  | .branch cond thenDo (some elseDo) => cond.Over T ∧ thenDo.Over T ∧ elseDo.Over T
  | .loop cond body => cond.Over T ∧ body.Over T
  | .function decl => decl.Over T
  | .ret keyword none => T keyword
  | .ret keyword (some value) => T keyword ∧ value.Over T
  | .classDecl decl => decl.Over T
termination_by structural s => s

def FunctionDecl.Over (T : Token → Prop) : FunctionDecl → Prop
  | ⟨name, params, body⟩ => T name ∧ (∀ p ∈ params, T p) ∧ Stmt.OverAll T body
termination_by structural decl => decl

def ClassDecl.Over (T : Token → Prop) : ClassDecl → Prop
  | ⟨name, superclass, interface, methods⟩ =>
    T name ∧ (∀ parent ∈ superclass, T parent.name) ∧ (∀ i ∈ interface, T i) ∧
      FunctionDecl.OverAll T methods
termination_by structural decl => decl

def Stmt.OverAll (T : Token → Prop) : List Stmt → Prop
  | [] => True
  | s :: ss => s.Over T ∧ Stmt.OverAll T ss
termination_by structural ss => ss

def FunctionDecl.OverAll (T : Token → Prop) : List FunctionDecl → Prop
  | [] => True
  | d :: ds => d.Over T ∧ FunctionDecl.OverAll T ds
termination_by structural ds => ds

end

theorem Expr.overAll_iff {T : Token → Prop} {es : List Expr} :
    Expr.OverAll T es ↔ ∀ e ∈ es, e.Over T := by
  induction es with
  | nil => exact iff_of_true trivial (List.forall_mem_nil _)
  | cons e es ih => exact (and_congr_right' ih).trans List.forall_mem_cons.symm

theorem Stmt.overAll_iff {T : Token → Prop} {sts : List Stmt} :
    Stmt.OverAll T sts ↔ ∀ st ∈ sts, st.Over T := by
  induction sts with
  | nil => exact iff_of_true trivial (List.forall_mem_nil _)
  | cons st sts ih => exact (and_congr_right' ih).trans List.forall_mem_cons.symm

theorem FunctionDecl.overAll_iff {T : Token → Prop} {ds : List FunctionDecl} :
    FunctionDecl.OverAll T ds ↔ ∀ d ∈ ds, d.Over T := by
  induction ds with
  | nil => exact iff_of_true trivial (List.forall_mem_nil _)
  | cons d ds ih => exact (and_congr_right' ih).trans List.forall_mem_cons.symm

end Scriptlet
