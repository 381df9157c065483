import Scriptlet.Proofs.Grammar.Derivation
import Scriptlet.Proofs.Lexer

/-!
# Proper trees

What the grammar and the spelling of tokens guarantee about a tree, said on the tree alone: names
are never `this` or `super`, these two keywords are spelled as such, unary and binary operators are
ones that have a meaning, and the statements under a condition or a loop declare nothing themselves.

Results:
* `Expr.Proper`, `Stmt.Proper`: the condition, by recursion on the tree.
* `Grammar.Derives.proper`: a program of the grammar over well-spelled tokens is proper.
-/

namespace Scriptlet

/-- A name that can be declared and referred to. -/
structure Token.IsName (t : Token) : Prop where
  identifier : t.is .identifier = true
  ne_this : t.lexeme ≠ "this"
  ne_super : t.lexeme ≠ "super"

theorem Token.Spelled.isName {t : Token} (h : t.Spelled) (ht : t.is .identifier = true) :
    t.IsName :=
  ⟨ht, h.name_ne ht (by decide), h.name_ne ht (by decide)⟩

/-- The binary operators that are not logical. -/
def binaryOperators : List Symbol :=
  [.bangEqual, .equalEqual, .greater, .greaterEqual, .less, .lessEqual, .minus, .plus, .slash,
    .star]

mutual

/-- The expression is one that can be parsed. -/
def Expr.Proper : Expr → Prop
  | .literal _ => True
  | .unary op operand => (op.is .bang || op.is .minus) = true ∧ operand.Proper
  | .binary left op right =>
    binaryOperators.any op.is = true ∧ left.Proper ∧ right.Proper
  | .logical left _ right => left.Proper ∧ right.Proper
  | .group inner => inner.Proper
  | .var _ name => name.IsName
  | .assign _ name value => name.IsName ∧ value.Proper
  | .call callee _ args => callee.Proper ∧ Expr.ProperAll args
  | .get object name => object.Proper ∧ name.is .identifier = true
  | .set object name value => object.Proper ∧ name.is .identifier = true ∧ value.Proper
  | .this _ keyword => keyword.lexeme = "this"
  | .super _ keyword method => keyword.lexeme = "super" ∧ method.is .identifier = true
termination_by structural e => e

def Expr.ProperAll : List Expr → Prop
  | [] => True
  | e :: es => e.Proper ∧ Expr.ProperAll es
termination_by structural es => es

end

/-- The name a statement declares in its scope. -/
def Stmt.declared? : Stmt → Option Token
  | .declare name _ => some name
  | .function ⟨name, _, _⟩ => some name
  | .classDecl ⟨name, _, _, _⟩ => some name
  | _ => none

mutual

/-- The statement is one that can be parsed. -/
def Stmt.Proper : Stmt → Prop
  | .expr e => e.Proper
  | .declare name none => name.IsName
  | .declare name (some init) => name.IsName ∧ init.Proper
  | .block body => Stmt.ProperAll body
  | .branch cond thenDo none => cond.Proper ∧ thenDo.Proper ∧ thenDo.declared? = none
  | .branch cond thenDo (some elseDo) =>
    cond.Proper ∧ (thenDo.Proper ∧ thenDo.declared? = none) ∧
      elseDo.Proper ∧ elseDo.declared? = none
  | .loop cond body => cond.Proper ∧ body.Proper ∧ body.declared? = none
  | .function decl => decl.Proper
  | .ret _ none => True
  | .ret _ (some value) => value.Proper
  | .classDecl decl => decl.Proper
termination_by structural s => s

def FunctionDecl.Proper : FunctionDecl → Prop
  | ⟨name, params, body⟩ => name.IsName ∧ (∀ p ∈ params, p.IsName) ∧ Stmt.ProperAll body
termination_by structural decl => decl

def ClassDecl.Proper : ClassDecl → Prop
  | ⟨name, superclass, _, methods⟩ =>
    name.IsName ∧ (∀ parent ∈ superclass, parent.name.IsName) ∧ FunctionDecl.ProperAll methods
termination_by structural decl => decl

def Stmt.ProperAll : List Stmt → Prop
  | [] => True
  | s :: ss => s.Proper ∧ Stmt.ProperAll ss
termination_by structural ss => ss

def FunctionDecl.ProperAll : List FunctionDecl → Prop
  | [] => True
  | d :: ds => d.Proper ∧ FunctionDecl.ProperAll ds
termination_by structural ds => ds

end

namespace Grammar

/-- What a rule derives is proper. -/
def ProperTree : (r : Rule) → r.Tree → Prop
  | .expression, e | .level _, e | .operand _, e | .unary, e | .call, e | .primary, e =>
    Expr.Proper e
  | .arguments, es => Expr.ProperAll es
  | .clause, o => ∀ e ∈ o, Expr.Proper e
  | .declarations, ds | .block, ds => Stmt.ProperAll ds
  | .declaration, d | .letDeclaration, d => Stmt.Proper d
  | .expressionStatement, d | .statement _, d => Stmt.Proper d ∧ d.declared? = none
  | .forInit, o => ∀ d ∈ o, Stmt.Proper d
  | .function, d => FunctionDecl.Proper d
  | .methods, ds => FunctionDecl.ProperAll ds

/-- Every token is spelled as its kind says. -/
def Spelled (ts : List Token) : Prop := ∀ t ∈ ts, t.Spelled

@[simp]
theorem spelled_append {ts us : List Token} :
    Spelled (ts ++ us) ↔ Spelled ts ∧ Spelled us := List.forall_mem_append

@[simp]
theorem spelled_cons {t : Token} {ts : List Token} :
    Spelled (t :: ts) ↔ t.Spelled ∧ Spelled ts := List.forall_mem_cons

theorem Joins.proper {l : Level} {left right e : Expr} {op : Token}
    (h : Joins left op right l e) (hl : left.Proper) (hr : right.Proper) : e.Proper := by
  cases h with
  | or _ | and _ => exact ⟨hl, hr⟩
  | equality hop | comparison hop | term hop | factor hop =>
    refine ⟨?_, hl, hr⟩
    simp only [Bool.or_eq_true] at hop
    simp only [binaryOperators, List.any_cons, Bool.or_eq_true]
    tauto

theorem Names.proper {ts names : List Token} (h : Names ts names) (hts : Spelled ts) :
    ∀ p ∈ names, p.IsName := by
  induction h with
  | one hn =>
    rintro _ (_ | ⟨_, ⟨⟩⟩)
    exact (hts _ List.mem_cons_self).isName hn
  | cons hn _ _ ih =>
    rw [spelled_cons, spelled_cons] at hts
    exact List.forall_mem_cons.mpr ⟨hts.1.isName hn, ih hts.2.2⟩

theorem Parameters.proper {ts names : List Token} (h : Parameters ts names) (hts : Spelled ts) :
    ∀ p ∈ names, p.IsName := by
  cases h with
  | none => exact nofun
  | some h _ => exact h.proper hts

theorem Extends.proper {ts : List Token} {o : Option Superclass} (h : Extends ts o)
    (hts : Spelled ts) : ∀ parent ∈ o, parent.name.IsName := by
  cases h with
  | none => exact nofun
  | some ref _ hn =>
    rintro _ ⟨⟩
    exact (hts _ (by simp)).isName hn

theorem forTree_proper {init : Option Stmt} {cond step : Option Expr} {body : Stmt}
    (hi : ∀ d ∈ init, Stmt.Proper d) (hc : ∀ e ∈ cond, Expr.Proper e)
    (hs : ∀ e ∈ step, Expr.Proper e) (hb : body.Proper ∧ body.declared? = none) :
    (forTree init cond step body).Proper ∧ (forTree init cond step body).declared? = none := by
  have hcond : (cond.getD (.literal (.bool true))).Proper := by
    cases cond with
    | none => exact trivial
    | some e => exact hc e rfl
  cases init <;> cases step <;>
    simp_all [forTree, Stmt.Proper, Stmt.ProperAll, Stmt.declared?]

/-- **Programs over well-spelled tokens are proper.** -/
theorem Derives.proper {r : Rule} {ts : List Token} {t : r.Tree} (h : Derives r ts t) :
    Spelled ts → ProperTree r t := by
  induction h with
  | assignName ref hl _ _ ihl ihv =>
    intro hts
    rw [spelled_append, spelled_cons] at hts
    exact ⟨ihl hts.1, ihv hts.2.2⟩
  | assignProperty hl _ _ ihl ihv =>
    intro hts
    rw [spelled_append, spelled_cons] at hts
    obtain ⟨hobject, hname⟩ := ihl hts.1
    exact ⟨hobject, hname, ihv hts.2.2⟩
  | loosest _ ih => exact ih
  | join _ ho _ ihl ihr =>
    intro hts
    rw [spelled_append, spelled_cons] at hts
    exact ho.proper (ihl hts.1) (ihr hts.2.2)
  | single _ ih => exact ih
  | tighter _ _ ih => exact ih
  | tightest _ ih => exact ih
  | operator ho _ ih => exact fun hts => ⟨ho, ih (spelled_cons.mp hts).2⟩
  | bare _ ih => exact ih
  | applyNone _ _ _ ih => exact fun hts => ⟨ih (spelled_append.mp hts).1, trivial⟩
  | apply _ _ _ _ _ ihc iha =>
    intro hts
    rw [spelled_append, spelled_cons, spelled_append] at hts
    exact ⟨ihc hts.1, iha hts.2.2.1⟩
  | get _ _ hn _ ih => exact fun hts => ⟨ih (spelled_append.mp hts).1, hn⟩
  | plain _ ih => exact ih
  | lastArgument _ ih => exact fun hts => ⟨ih hts, trivial⟩
  | argument _ _ _ ih ihs =>
    intro hts
    rw [spelled_append, spelled_cons] at hts
    exact ⟨ih hts.1, ihs hts.2.2⟩
  | super ref hk _ hm => exact fun hts => ⟨(spelled_cons.mp hts).1.super hk, hm⟩
  | this ref h => exact fun hts => (spelled_cons.mp hts).1.this h
  | name ref h => exact fun hts => (spelled_cons.mp hts).1.isName h
  | group _ _ _ ih => exact fun hts => ih (spelled_append.mp (spelled_cons.mp hts).2).1
  | new _ _ ih => exact fun hts => ih (spelled_cons.mp hts).2
  | noClause => exact fun _ => nofun
  | someClause _ ih => exact fun hts e he => Option.some.inj he ▸ ih hts
  | moreDeclarations _ _ ih ihs =>
    exact fun hts => ⟨ih (spelled_append.mp hts).1, ihs (spelled_append.mp hts).2⟩
  | classDeclaration _ hn hx _ _ _ _ ih =>
    intro hts
    simp only [spelled_cons, spelled_append] at hts
    exact ⟨hts.2.1.isName hn, hx.proper hts.2.2.1, ih hts.2.2.2.2.2.1⟩
  | functionDeclaration _ _ ih => exact fun hts => ih (spelled_cons.mp hts).2
  | variableDeclaration _ ih => exact ih
  | statement _ ih => exact fun hts => (ih hts).1
  | declare _ hn _ => exact fun hts => (spelled_cons.mp (spelled_cons.mp hts).2).1.isName hn
  | declareInit _ hn _ _ _ ih =>
    intro hts
    simp only [spelled_cons, spelled_append] at hts
    exact ⟨hts.2.1.isName hn, ih hts.2.2.2.1⟩
  | evaluate _ _ ih => exact fun hts => ⟨ih (spelled_append.mp hts).1, rfl⟩
  | initNone => exact fun _ => nofun
  | initLet _ ih => exact fun hts d hd => Option.some.inj hd ▸ ih hts
  | initExpression _ ih => exact fun hts d hd => Option.some.inj hd ▸ (ih hts).1
  | function hn _ hp _ _ ih =>
    intro hts
    simp only [spelled_cons, spelled_append] at hts
    exact ⟨hts.1.isName hn, hp.proper hts.2.2.1, ih hts.2.2.2.2⟩
  | moreMethods _ _ ih ihs =>
    exact fun hts => ⟨ih (spelled_append.mp hts).1, ihs (spelled_append.mp hts).2⟩
  | block _ _ _ ih => exact fun hts => ih (spelled_append.mp (spelled_cons.mp hts).2).1
  | exprStatement _ ih => exact ih
  | forStatement _ _ _ _ _ _ _ _ ihi ihc iht ihb =>
    intro hts
    simp only [spelled_cons, spelled_append] at hts
    exact forTree_proper (ihi hts.2.2.1) (ihc hts.2.2.2.1) (iht hts.2.2.2.2.2.1)
      (ihb hts.2.2.2.2.2.2.2)
  | ifThen _ _ _ _ _ ihc iht =>
    intro hts
    simp only [spelled_cons, spelled_append] at hts
    exact ⟨⟨ihc hts.2.2.1, iht hts.2.2.2.2⟩, rfl⟩
  | ifThenElse _ _ _ _ _ _ _ ihc iht ihe =>
    intro hts
    simp only [spelled_cons, spelled_append] at hts
    exact ⟨⟨ihc hts.2.2.1, iht hts.2.2.2.2.1, ihe hts.2.2.2.2.2.2⟩, rfl⟩
  | @returnStatement _ _ _ value _ _ _ ih =>
    intro hts
    simp only [spelled_cons, spelled_append] at hts
    cases value with
    | none => exact ⟨trivial, rfl⟩
    | some e => exact ⟨ih hts.2.1 e rfl, rfl⟩
  | whileStatement _ _ _ _ _ ihc ihb =>
    intro hts
    simp only [spelled_cons, spelled_append] at hts
    exact ⟨⟨ihc hts.2.2.1, ihb hts.2.2.2.2⟩, rfl⟩
  | blockStatement _ ih => exact fun hts => ⟨ih hts, rfl⟩
  | _ => exact fun _ => trivial

end Grammar

end Scriptlet
