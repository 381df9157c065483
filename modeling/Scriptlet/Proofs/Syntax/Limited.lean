import Scriptlet.Proofs.Grammar.Derivation

/-!
# Trees within the limits

No call in the tree has more arguments, and no function or method more parameters, than
`Parser.maxArity`.

Results:
* `Expr.Limited`, `Stmt.Limited`: the condition, by recursion on the tree.
* `Grammar.Derives.limited`: **a program of the grammar is within the limits.**
-/

namespace Scriptlet

open Scriptlet.Parser (maxArity)

mutual

/-- No call in the expression has too many arguments. -/
def Expr.Limited : Expr → Prop
  | .literal _ | .var _ _ | .this _ _ | .super _ _ _ => True
  | .unary _ operand => operand.Limited
  | .binary left _ right | .logical left _ right => left.Limited ∧ right.Limited
  | .group inner => inner.Limited
  | .assign _ _ value => value.Limited
  | .call callee _ args => args.length ≤ maxArity ∧ callee.Limited ∧ Expr.LimitedAll args
  | .get object _ => object.Limited
  | .set object _ value => object.Limited ∧ value.Limited
termination_by structural e => e

def Expr.LimitedAll : List Expr → Prop
  | [] => True
  | e :: es => e.Limited ∧ Expr.LimitedAll es
termination_by structural es => es

end

mutual

/-- No call in the statement has too many arguments, and no function too many parameters. -/
def Stmt.Limited : Stmt → Prop
  | .expr e => e.Limited
  | .declare _ none => True
  | .declare _ (some init) => init.Limited
  | .block body => Stmt.LimitedAll body
  | .branch cond thenDo none => cond.Limited ∧ thenDo.Limited
  | .branch cond thenDo (some elseDo) => cond.Limited ∧ thenDo.Limited ∧ elseDo.Limited
  | .loop cond body => cond.Limited ∧ body.Limited
  | .function decl => decl.Limited
  | .ret _ none => True
  | .ret _ (some value) => value.Limited
  | .classDecl decl => decl.Limited
termination_by structural s => s

def FunctionDecl.Limited : FunctionDecl → Prop
  | ⟨_, params, body⟩ => params.length ≤ maxArity ∧ Stmt.LimitedAll body
termination_by structural decl => decl

def ClassDecl.Limited : ClassDecl → Prop
  | ⟨_, _, _, methods⟩ => FunctionDecl.LimitedAll methods
termination_by structural decl => decl

def Stmt.LimitedAll : List Stmt → Prop
  | [] => True
  | s :: ss => s.Limited ∧ Stmt.LimitedAll ss
termination_by structural ss => ss

def FunctionDecl.LimitedAll : List FunctionDecl → Prop
  | [] => True
  | d :: ds => d.Limited ∧ FunctionDecl.LimitedAll ds
termination_by structural ds => ds

end

namespace Grammar

/-- What a rule derives is within the limits. Arguments are counted where they are those of a call. -/
def LimitedTree : (r : Rule) → r.Tree → Prop
  | .expression, e | .level _, e | .operand _, e | .unary, e | .call, e | .primary, e =>
    Expr.Limited e
  | .arguments, es => Expr.LimitedAll es
  | .clause, o => ∀ e ∈ o, Expr.Limited e
  | .declarations, ds | .block, ds => Stmt.LimitedAll ds
  | .declaration, d | .letDeclaration, d | .expressionStatement, d | .statement _, d =>
    Stmt.Limited d
  | .forInit, o => ∀ d ∈ o, Stmt.Limited d
  | .function, d => FunctionDecl.Limited d
  | .methods, ds => FunctionDecl.LimitedAll ds

theorem Parameters.limited {ts names : List Token} (h : Parameters ts names) :
    names.length ≤ maxArity := by
  cases h with
  | none => exact Nat.zero_le _
  | some _ hlen => exact hlen

theorem forTree_limited {init : Option Stmt} {cond step : Option Expr} {body : Stmt}
    (hi : ∀ d ∈ init, Stmt.Limited d) (hc : ∀ e ∈ cond, Expr.Limited e)
    (hs : ∀ e ∈ step, Expr.Limited e) (hb : body.Limited) :
    (forTree init cond step body).Limited := by
  have hcond : (cond.getD (.literal (.bool true))).Limited := by
    cases cond with
    | none => exact trivial
    | some e => exact hc e rfl
  cases init <;> cases step <;> simp_all [forTree, Stmt.Limited, Stmt.LimitedAll]

/-- **Programs of the grammar are within the limits.** -/
theorem Derives.limited {r : Rule} {ts : List Token} {t : r.Tree} (h : Derives r ts t) :
    LimitedTree r t := by
  induction h with
  | assignName _ _ _ _ _ ihv => exact ihv
  | assignProperty _ _ _ ihl ihv => exact ⟨ihl, ihv⟩
  | loosest _ ih | single _ ih | tighter _ _ ih | tightest _ ih | operator _ _ ih | bare _ ih
  | get _ _ _ _ ih | plain _ ih | group _ _ _ ih | new _ _ ih | variableDeclaration _ ih
  | functionDeclaration _ _ ih | classDeclaration _ _ _ _ _ _ _ ih | statement _ ih
  | declareInit _ _ _ _ _ ih | evaluate _ _ ih | block _ _ _ ih | exprStatement _ ih
  | blockStatement _ ih => exact ih
  | join _ ho _ ihl ihr => cases ho <;> exact ⟨ihl, ihr⟩
  | applyNone _ _ _ ih => exact ⟨Nat.zero_le _, ih, trivial⟩
  | apply _ _ _ hlen _ ihc iha => exact ⟨hlen, ihc, iha⟩
  | lastArgument _ ih => exact ⟨ih, trivial⟩
  | argument _ _ _ ih ihs | moreDeclarations _ _ ih ihs | moreMethods _ _ ih ihs => exact ⟨ih, ihs⟩
  | noClause | initNone => rintro _ ⟨⟩
  | someClause _ ih | initLet _ ih | initExpression _ ih => rintro _ ⟨⟩; exact ih
  | function _ _ hp _ _ ih => exact ⟨hp.limited, ih⟩
  | forStatement _ _ _ _ _ _ _ _ ihi ihc iht ihb => exact forTree_limited ihi ihc iht ihb
  | ifThen _ _ _ _ _ ihc iht => exact ⟨ihc, iht⟩
  | ifThenElse _ _ _ _ _ _ _ ihc iht ihe => exact ⟨ihc, iht, ihe⟩
  | @returnStatement _ _ _ value _ _ _ ih =>
    cases value with
    | none => exact trivial
    | some e => exact ih e rfl
  | whileStatement _ _ _ _ _ ihc ihb => exact ⟨ihc, ihb⟩
  | _ => exact trivial

end Grammar

end Scriptlet
