import Scriptlet.Syntax.Parser.Statement

/-!
# The grammar of programs

`Derives r ts t`: the tokens `ts` derive from the rule `r`, and `t` is the tree of the derivation.
There is one constructor for each alternative of a rule. What the rules of `Syntax/Parser` leave to
the reader is said here:

* operators of one level, and calls, join from the left (`join`, `apply`, `get` have the longer part
  on the left); assignments and unary operators from the right;
* the left side of an assignment is a `call` whose tree is a variable or a property;
* an `else` belongs to the nearest `if`: the statement between the condition and the `else` does not
  itself end with an `if` that has none (`statement false`);
* a property is not called `constructor`, and no list of arguments or parameters has more than 255
  entries;
* `new e` is `e`, `undefined` is `null`, and `for` is a loop over a block (`forTree`).

The operators, their levels and their trees are spelled out once more (`Joins`, `Tighter`), and so
are the limit of a list and the tree of a `for`: the grammar takes nothing of this from the parser.
That both say the same is `joins_iff`, `tighter_iff`, `tightest_iff`, `maxArity_eq` and `forTree_eq`.

The identities of references are left open: a tree derives whatever they are. `Stmt.unlabelled` is a
tree without them.
-/

namespace Scriptlet

/-! ## Trees without identities -/

mutual

/-- The expression with all references given the same identity. -/
def Expr.unlabelled : Expr → Expr
  | .literal value => .literal value
  | .unary op operand => .unary op operand.unlabelled
  | .binary left op right => .binary left.unlabelled op right.unlabelled
  | .logical left op right => .logical left.unlabelled op right.unlabelled
  | .group inner => .group inner.unlabelled
  | .var _ name => .var 0 name
  | .assign _ name value => .assign 0 name value.unlabelled
  | .call callee paren args => .call callee.unlabelled paren (Expr.unlabelledAll args)
  | .get object name => .get object.unlabelled name
  | .set object name value => .set object.unlabelled name value.unlabelled
  | .this _ keyword => .this 0 keyword
  | .super _ keyword method => .super 0 keyword method
termination_by structural e => e

def Expr.unlabelledAll : List Expr → List Expr
  | [] => []
  | e :: es => e.unlabelled :: Expr.unlabelledAll es
termination_by structural es => es

end

mutual

/-- The statement with all references given the same identity. -/
def Stmt.unlabelled : Stmt → Stmt
  | .expr e => .expr e.unlabelled
  | .declare name none => .declare name none
  | .declare name (some init) => .declare name (some init.unlabelled)
  | .block body => .block (Stmt.unlabelledAll body)
  | .branch cond thenDo none => .branch cond.unlabelled thenDo.unlabelled none
  | .branch cond thenDo (some elseDo) =>
    .branch cond.unlabelled thenDo.unlabelled (some elseDo.unlabelled)
  | .loop cond body => .loop cond.unlabelled body.unlabelled
  | .function decl => .function decl.unlabelled
  | .ret keyword none => .ret keyword none
  | .ret keyword (some value) => .ret keyword (some value.unlabelled)
  | .classDecl decl => .classDecl decl.unlabelled
termination_by structural s => s

def FunctionDecl.unlabelled : FunctionDecl → FunctionDecl
  | ⟨name, params, body⟩ => ⟨name, params, Stmt.unlabelledAll body⟩
termination_by structural decl => decl

def ClassDecl.unlabelled : ClassDecl → ClassDecl
  | ⟨name, superclass, interface, methods⟩ =>
    ⟨name, superclass.map fun parent => ⟨0, parent.name⟩, interface,
      FunctionDecl.unlabelledAll methods⟩
termination_by structural decl => decl

def Stmt.unlabelledAll : List Stmt → List Stmt
  | [] => []
  | s :: ss => s.unlabelled :: Stmt.unlabelledAll ss
termination_by structural ss => ss

def FunctionDecl.unlabelledAll : List FunctionDecl → List FunctionDecl
  | [] => []
  | d :: ds => d.unlabelled :: FunctionDecl.unlabelledAll ds
termination_by structural ds => ds

end

namespace Grammar

/-! ## Rules -/

/-- The rules of the grammar. -/
inductive Rule where
  | expression
  /-- Operands joined by the operators of a level, and one operand of it. -/
  | level (l : Level)
  | operand (l : Level)
  | unary
  | call
  | primary
  | arguments
  /-- An expression that may be left out. -/
  | clause
  | declarations
  | declaration
  | letDeclaration
  | expressionStatement
  /-- The first clause of a `for`, with its semicolon. -/
  | forInit
  /-- Name, parameters and body. -/
  | function
  | methods
  | block
  /-- A statement; a *dangling* one ends with an `if` without an `else`. -/
  | statement (dangling : Bool)

/-- What a rule derives. -/
@[reducible]
def Rule.Tree : Rule → Type
  | expression | level _ | operand _ | unary | call | primary => Expr
  | arguments => List Expr
  | clause => Option Expr
  | declarations | block => List Stmt
  | declaration | letDeclaration | expressionStatement | statement _ => Stmt
  | forInit => Option Stmt
  | function => FunctionDecl
  | methods => List FunctionDecl

/-- Names with commas between them. -/
inductive Names : List Token → List Token → Prop
  | one {name : Token} (hn : name.is .identifier) : Names [name] [name]
  | cons {name comma : Token} {ts names : List Token} (hn : name.is .identifier)
      (hc : comma.is .comma) (h : Names ts names) : Names (name :: comma :: ts) (name :: names)

/-- The parameters of a function, of which there may be none. -/
inductive Parameters : List Token → List Token → Prop
  | none : Parameters [] []
  | some {ts names : List Token} (h : Names ts names) (hlen : names.length ≤ 255) :
      Parameters ts names

/-- `extends` and a name, or nothing. -/
inductive Extends : List Token → Option Superclass → Prop
  | none : Extends [] none
  | some {keyword name : Token} (ref : RefId) (hk : keyword.is .extendsKw)
      (hn : name.is .identifier) : Extends [keyword, name] (some ⟨ref, name⟩)

/-- `implements` and a name, or nothing. -/
inductive Implements : List Token → Option Token → Prop
  | none : Implements [] none
  | some {keyword name : Token} (hk : keyword.is .implementsKw) (hn : name.is .identifier) :
      Implements [keyword, name] (some name)

/-- **The operators of each level, and the tree of two operands joined by one.** -/
inductive Joins (left : Expr) (op : Token) (right : Expr) : Level → Expr → Prop
  | or (h : op.is .pipePipe) : Joins left op right .or (.logical left op right)
  | and (h : op.is .ampersandAmpersand) : Joins left op right .and (.logical left op right)
  | equality (h : op.is .bangEqual || op.is .equalEqual) :
      Joins left op right .equality (.binary left op right)
  | comparison (h : op.is .greater || op.is .greaterEqual || op.is .less || op.is .lessEqual) :
      Joins left op right .comparison (.binary left op right)
  | term (h : op.is .minus || op.is .plus) : Joins left op right .term (.binary left op right)
  | factor (h : op.is .slash || op.is .star) : Joins left op right .factor (.binary left op right)

/-- The operands of a level are of the next one. Those of the last are unary. -/
inductive Tighter : Level → Level → Prop
  | or : Tighter .or .and
  | and : Tighter .and .equality
  | equality : Tighter .equality .comparison
  | comparison : Tighter .comparison .term
  | term : Tighter .term .factor

/-- **The loop that a `for` is.** The step ends each turn, in a block with the body; the initializer
stands before the loop, in a block around both. Without a condition the loop is endless. -/
def forTree (init : Option Stmt) (cond step : Option Expr) (body : Stmt) : Stmt :=
  match init, cond.getD (.literal (.bool true)), step with
  | none, cond, none => .loop cond body
  | none, cond, some step => .loop cond (.block [body, .expr step])
  | some init, cond, none => .block [init, .loop cond body]
  | some init, cond, some step => .block [init, .loop cond (.block [body, .expr step])]

/-- **The tokens derive from the rule, with this tree.** -/
inductive Derives : (r : Rule) → List Token → r.Tree → Prop
  -- expression → call "=" expression | or
  | assignName {ts us : List Token} {eq name : Token} {r : RefId} {value : Expr} (ref : RefId)
      (hl : Derives .call ts (.var r name)) (he : eq.is .equal)
      (hv : Derives .expression us value) :
      Derives .expression (ts ++ eq :: us) (.assign ref name value)
  | assignProperty {ts us : List Token} {eq name : Token} {object value : Expr}
      (hl : Derives .call ts (.get object name)) (he : eq.is .equal)
      (hv : Derives .expression us value) :
      Derives .expression (ts ++ eq :: us) (.set object name value)
  | loosest {ts : List Token} {e : Expr} (h : Derives (.level .or) ts e) :
      Derives .expression ts e
  -- level → level OP operand | operand
  | join {l : Level} {ts us : List Token} {op : Token} {left right e : Expr}
      (hl : Derives (.level l) ts left) (ho : Joins left op right l e)
      (hr : Derives (.operand l) us right) : Derives (.level l) (ts ++ op :: us) e
  | single {l : Level} {ts : List Token} {e : Expr} (h : Derives (.operand l) ts e) :
      Derives (.level l) ts e
  | tighter {l l' : Level} {ts : List Token} {e : Expr} (hl : Tighter l l')
      (h : Derives (.level l') ts e) : Derives (.operand l) ts e
  | tightest {ts : List Token} {e : Expr} (h : Derives .unary ts e) :
      Derives (.operand .factor) ts e
  -- unary → ( "!" | "-" ) unary | call
  | operator {ts : List Token} {op : Token} {e : Expr} (ho : op.is .bang || op.is .minus)
      (h : Derives .unary ts e) : Derives .unary (op :: ts) (.unary op e)
  | bare {ts : List Token} {e : Expr} (h : Derives .call ts e) : Derives .unary ts e
  -- call → call "(" arguments? ")" | call "." IDENT | primary
  | applyNone {ts : List Token} {left right : Token} {callee : Expr}
      (hc : Derives .call ts callee) (hl : left.is .leftParen) (hr : right.is .rightParen) :
      Derives .call (ts ++ [left, right]) (.call callee right [])
  | apply {ts us : List Token} {left right : Token} {callee : Expr} {args : List Expr}
      (hc : Derives .call ts callee) (hl : left.is .leftParen) (ha : Derives .arguments us args)
      (hlen : args.length ≤ 255) (hr : right.is .rightParen) :
      Derives .call (ts ++ left :: (us ++ [right])) (.call callee right args)
  | get {ts : List Token} {dot name : Token} {object : Expr} (ho : Derives .call ts object)
      (hd : dot.is .dot) (hn : name.is .identifier) (hc : name.lexeme ≠ constructorName) :
      Derives .call (ts ++ [dot, name]) (.get object name)
  | plain {ts : List Token} {e : Expr} (h : Derives .primary ts e) : Derives .call ts e
  -- arguments → expression ( "," expression )*
  | lastArgument {ts : List Token} {e : Expr} (h : Derives .expression ts e) :
      Derives .arguments ts [e]
  | argument {ts us : List Token} {comma : Token} {e : Expr} {es : List Expr}
      (h : Derives .expression ts e) (hc : comma.is .comma) (hs : Derives .arguments us es) :
      Derives .arguments (ts ++ comma :: us) (e :: es)
  -- primary
  | number {t : Token} {value : Number} (h : t.kind = .number value) :
      Derives .primary [t] (.literal (.number value))
  | string {t : Token} {value : String} (h : t.kind = .string value) :
      Derives .primary [t] (.literal (.string value))
  | falsity {t : Token} (h : t.is .falseKw) : Derives .primary [t] (.literal (.bool false))
  | truth {t : Token} (h : t.is .trueKw) : Derives .primary [t] (.literal (.bool true))
  | null {t : Token} (h : t.is .nullKw) : Derives .primary [t] (.literal .null)
  | undefined {t : Token} (h : t.is .undefinedKw) : Derives .primary [t] (.literal .null)
  | super {keyword dot method : Token} (ref : RefId) (hk : keyword.is .superKw) (hd : dot.is .dot)
      (hm : method.is .identifier) :
      Derives .primary [keyword, dot, method] (.super ref keyword method)
  | this {t : Token} (ref : RefId) (h : t.is .thisKw) : Derives .primary [t] (.this ref t)
  | name {t : Token} (ref : RefId) (h : t.is .identifier) : Derives .primary [t] (.var ref t)
  | group {ts : List Token} {left right : Token} {e : Expr} (hl : left.is .leftParen)
      (h : Derives .expression ts e) (hr : right.is .rightParen) :
      Derives .primary (left :: (ts ++ [right])) (.group e)
  | new {ts : List Token} {keyword : Token} {e : Expr} (hk : keyword.is .newKw)
      (h : Derives .call ts e) : Derives .primary (keyword :: ts) e
  -- clause → expression?
  | noClause : Derives .clause [] none
  | someClause {ts : List Token} {e : Expr} (h : Derives .expression ts e) :
      Derives .clause ts (some e)
  -- declarations → declaration*
  | noDeclaration : Derives .declarations [] []
  | moreDeclarations {ts us : List Token} {d : Stmt} {ds : List Stmt}
      (h : Derives .declaration ts d) (hs : Derives .declarations us ds) :
      Derives .declarations (ts ++ us) (d :: ds)
  -- declaration → classDecl | "function" function | letDecl | statement
  | classDeclaration {xs is ms : List Token} {keyword name left right : Token}
      {superclass : Option Superclass} {interface : Option Token} {methods : List FunctionDecl}
      (hk : keyword.is .classKw) (hn : name.is .identifier) (hx : Extends xs superclass)
      (hi : Implements is interface) (hl : left.is .leftBrace) (hm : Derives .methods ms methods)
      (hr : right.is .rightBrace) :
      Derives .declaration (keyword :: name :: (xs ++ (is ++ left :: (ms ++ [right]))))
        (.classDecl ⟨name, superclass, interface, methods⟩)
  | functionDeclaration {ts : List Token} {keyword : Token} {d : FunctionDecl}
      (hk : keyword.is .functionKw) (h : Derives .function ts d) :
      Derives .declaration (keyword :: ts) (.function d)
  | variableDeclaration {ts : List Token} {d : Stmt} (h : Derives .letDeclaration ts d) :
      Derives .declaration ts d
  | statement {dangling : Bool} {ts : List Token} {s : Stmt}
      (h : Derives (.statement dangling) ts s) : Derives .declaration ts s
  -- letDecl → "let" IDENT ( "=" expression )? ";"
  | declare {keyword name semicolon : Token} (hk : keyword.is .letKw) (hn : name.is .identifier)
      (hs : semicolon.is .semicolon) :
      Derives .letDeclaration [keyword, name, semicolon] (.declare name none)
  | declareInit {ts : List Token} {keyword name eq semicolon : Token} {e : Expr}
      (hk : keyword.is .letKw) (hn : name.is .identifier) (he : eq.is .equal)
      (h : Derives .expression ts e) (hs : semicolon.is .semicolon) :
      Derives .letDeclaration (keyword :: name :: eq :: (ts ++ [semicolon]))
        (.declare name (some e))
  -- exprStmt → expression ";"
  | evaluate {ts : List Token} {semicolon : Token} {e : Expr} (h : Derives .expression ts e)
      (hs : semicolon.is .semicolon) :
      Derives .expressionStatement (ts ++ [semicolon]) (.expr e)
  -- the first clause of a for → letDecl | exprStmt | ";"
  | initNone {semicolon : Token} (hs : semicolon.is .semicolon) :
      Derives .forInit [semicolon] none
  | initLet {ts : List Token} {d : Stmt} (h : Derives .letDeclaration ts d) :
      Derives .forInit ts (some d)
  | initExpression {ts : List Token} {s : Stmt} (h : Derives .expressionStatement ts s) :
      Derives .forInit ts (some s)
  -- function → IDENT "(" parameters? ")" block
  | function {ps bs : List Token} {name left right : Token} {params : List Token}
      {body : List Stmt} (hn : name.is .identifier) (hl : left.is .leftParen)
      (hp : Parameters ps params) (hr : right.is .rightParen) (hb : Derives .block bs body) :
      Derives .function (name :: left :: (ps ++ right :: bs)) ⟨name, params, body⟩
  | noMethod : Derives .methods [] []
  | moreMethods {ts us : List Token} {d : FunctionDecl} {ds : List FunctionDecl}
      (h : Derives .function ts d) (hs : Derives .methods us ds) :
      Derives .methods (ts ++ us) (d :: ds)
  -- block → "{" declaration* "}"
  | block {ts : List Token} {left right : Token} {ds : List Stmt} (hl : left.is .leftBrace)
      (h : Derives .declarations ts ds) (hr : right.is .rightBrace) :
      Derives .block (left :: (ts ++ [right])) ds
  -- statement → exprStmt | forStmt | ifStmt | returnStmt | whileStmt | block
  | exprStatement {ts : List Token} {s : Stmt} (h : Derives .expressionStatement ts s) :
      Derives (.statement false) ts s
  | forStatement {dangling : Bool} {is cs ss bs : List Token} {keyword left semicolon right : Token}
      {init : Option Stmt} {cond step : Option Expr} {body : Stmt} (hk : keyword.is .forKw)
      (hl : left.is .leftParen) (hi : Derives .forInit is init) (hc : Derives .clause cs cond)
      (hs : semicolon.is .semicolon) (ht : Derives .clause ss step) (hr : right.is .rightParen)
      (hb : Derives (.statement dangling) bs body) :
      Derives (.statement dangling)
        (keyword :: left :: (is ++ (cs ++ semicolon :: (ss ++ right :: bs))))
        (forTree init cond step body)
  | ifThen {dangling : Bool} {cs ts : List Token} {keyword left right : Token} {cond : Expr}
      {thenDo : Stmt} (hk : keyword.is .ifKw) (hl : left.is .leftParen)
      (hc : Derives .expression cs cond) (hr : right.is .rightParen)
      (ht : Derives (.statement dangling) ts thenDo) :
      Derives (.statement true) (keyword :: left :: (cs ++ right :: ts)) (.branch cond thenDo none)
  | ifThenElse {dangling : Bool} {cs ts es : List Token} {keyword left right other : Token}
      {cond : Expr} {thenDo elseDo : Stmt} (hk : keyword.is .ifKw) (hl : left.is .leftParen)
      (hc : Derives .expression cs cond) (hr : right.is .rightParen)
      (ht : Derives (.statement false) ts thenDo) (ho : other.is .elseKw)
      (he : Derives (.statement dangling) es elseDo) :
      Derives (.statement dangling) (keyword :: left :: (cs ++ right :: (ts ++ other :: es)))
        (.branch cond thenDo (some elseDo))
  | returnStatement {cs : List Token} {keyword semicolon : Token} {value : Option Expr}
      (hk : keyword.is .returnKw) (hv : Derives .clause cs value)
      (hs : semicolon.is .semicolon) :
      Derives (.statement false) (keyword :: (cs ++ [semicolon])) (.ret keyword value)
  | whileStatement {dangling : Bool} {cs bs : List Token} {keyword left right : Token}
      {cond : Expr} {body : Stmt} (hk : keyword.is .whileKw) (hl : left.is .leftParen)
      (hc : Derives .expression cs cond) (hr : right.is .rightParen)
      (hb : Derives (.statement dangling) bs body) :
      Derives (.statement dangling) (keyword :: left :: (cs ++ right :: bs)) (.loop cond body)
  | blockStatement {ts : List Token} {ds : List Stmt} (h : Derives .block ts ds) :
      Derives (.statement false) ts (.block ds)

/-- The tokens are a program. -/
def Program (ts : List Token) (program : List Stmt) : Prop := Derives .declarations ts program

/-! ## What the parser has of this -/

/-- The parser goes by the same operators and builds the same trees of them. -/
theorem joins_iff {l : Level} {op : Token} {left right e : Expr} :
    Joins left op right l e ↔ l.operators.any op.is = true ∧ e = l.join left op right := by
  constructor
  · intro h
    cases h <;> simp_all [Level.operators, Level.join, or_assoc]
  · rintro ⟨h, rfl⟩
    cases l with
    | or => exact .or (by simpa [Level.operators] using h)
    | and => exact .and (by simpa [Level.operators] using h)
    | equality => exact .equality (by simpa [Level.operators] using h)
    | comparison => exact .comparison (by simpa [Level.operators, or_assoc] using h)
    | term => exact .term (by simpa [Level.operators] using h)
    | factor => exact .factor (by simpa [Level.operators] using h)

theorem tighter_iff {l l' : Level} : Tighter l l' ↔ l.tighter = some l' := by
  constructor
  · rintro ⟨⟩ <;> rfl
  · intro h
    cases l <;> cases h <;> constructor

theorem tightest_iff {l : Level} : l = .factor ↔ l.tighter = none := by
  cases l <;> decide

theorem maxArity_eq : Parser.maxArity = 255 := rfl

theorem forTree_eq (init : Option Stmt) (cond step : Option Expr) (body : Stmt) :
    forTree init cond step body = Parser.forLoop init cond step body := by
  cases init <;> cases step <;> rfl

end Grammar

end Scriptlet
