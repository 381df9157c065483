import Scriptlet.Proofs.Grammar.Accepting
import Scriptlet.Proofs.Lexer

/-!
# What is in the grammar is accepted

Every derivation is accepted by its rule, when the tokens that follow do not continue it, and the
value is the tree of the derivation up to identities. A declaration may end with an `if` that would
take an `else`; what follows it, another declaration, a brace or the end of the text, is none.

Results:
* `Derives.complete`: the parser accepts what derives from a rule.
* `parse_of_program`: a program is parsed without errors, as the tree of its derivation.
* `parse_exact`: the parser accepts the programs of the grammar and nothing else.
-/

namespace Scriptlet.Grammar

open Filter (atTop)
open Scriptlet.Parser (State Result bind_of_ok bind_of_fail bind_of_exhausted bind_eq_ok)

/-! ## Declarations and statements -/

/-- The same statement, and the same statements, up to identities. -/
def SameStmt (d d' : Stmt) : Prop := d'.unlabelled = d.unlabelled

def SameStmts (ds ds' : List Stmt) : Prop := Stmt.unlabelledAll ds' = Stmt.unlabelledAll ds

theorem unlabelled_ret (keyword : Token) (value : Option Expr) :
    (Stmt.ret keyword value).unlabelled = .ret keyword (value.map Expr.unlabelled) := by
  cases value <;> rfl

theorem forLoop_unlabelled (init : Option Stmt) (cond step : Option Expr) (body : Stmt) :
    (Parser.forLoop init cond step body).unlabelled =
      Parser.forLoop (init.map Stmt.unlabelled) (cond.map Expr.unlabelled)
        (step.map Expr.unlabelled) body.unlabelled := by
  cases init <;> cases cond <;> cases step <;> rfl

theorem accepts_declare {name semicolon : Token} (hn : name.is .identifier = true)
    (hs : semicolon.is .semicolon = true) (rest : List Token) :
    Accepts Parser.letDeclaration (SameStmt (.declare name none)) [name, semicolon] rest := by
  intro s hrest
  refine ⟨.declare name none, (s.read name (semicolon :: rest)).read semicolon rest, rfl,
    (reaches_read s _ _).read, .of_forall fun n => ?_⟩
  unfold Parser.letDeclaration
  rw [bind_of_ok (expect_some hrest hn), bind_of_ok (accept_none (without_of_is hs (by decide)))]
  dsimp only
  rw [bind_of_ok (show (pure none : Parser (Option Expr)) _ = .ok _ _ from rfl),
    bind_of_ok (expect_some rfl hs)]
  rfl

theorem Accepts.declareInit {ts rest : List Token} {name eq semicolon : Token} {e : Expr}
    (hn : name.is .identifier = true) (he : eq.is .equal = true)
    (hs : semicolon.is .semicolon = true)
    (h : Accepts Parser.expression (SameExpr e) ts (semicolon :: rest)) :
    Accepts Parser.letDeclaration (SameStmt (.declare name (some e)))
      (name :: eq :: (ts ++ [semicolon])) rest := by
  intro s hrest
  simp only [List.cons_append, List.append_assoc, List.nil_append] at hrest
  obtain ⟨e', s', hsame, hreach, hexpr⟩ :=
    h ((s.read name (eq :: (ts ++ semicolon :: rest))).read eq (ts ++ semicolon :: rest)) rfl
  refine ⟨.declare name (some e'), s'.read semicolon rest,
    congrArg (fun e => Stmt.declare name (some e)) hsame,
    ((reaches_read s _ _).read.trans hreach).read, ?_⟩
  filter_upwards [hexpr] with n hn'
  unfold Parser.letDeclaration
  rw [bind_of_ok (expect_some hrest hn), bind_of_ok (accept_some rfl he)]
  dsimp only
  rw [bind_of_ok (Parser.map_eq_ok.mpr ⟨e', hn', rfl⟩), bind_of_ok (expect_some hreach.rest hs)]
  rfl

theorem Accepts.evaluate {ts rest : List Token} {semicolon : Token} {e : Expr}
    (hs : semicolon.is .semicolon = true)
    (h : Accepts Parser.expression (SameExpr e) ts (semicolon :: rest)) :
    Accepts Parser.expressionStatement (SameStmt (.expr e)) (ts ++ [semicolon]) rest := by
  intro s hrest
  obtain ⟨e', s', hsame, hreach, hexpr⟩ := h s (by rw [hrest]; simp)
  refine ⟨.expr e', s'.read semicolon rest, congrArg Stmt.expr hsame, hreach.read, ?_⟩
  filter_upwards [hexpr] with n hn
  unfold Parser.expressionStatement
  rw [bind_of_ok hn, bind_of_ok (expect_some hreach.rest hs)]
  rfl

theorem Accepts.returnStatement {cs rest : List Token} {keyword semicolon : Token}
    {value : Option Expr} (hs : semicolon.is .semicolon = true)
    (h : Accepts (Parser.expressionUnless · .semicolon) (SameClause value) cs
      (semicolon :: rest)) :
    Accepts (Parser.returnStatement · keyword) (SameStmt (.ret keyword value))
      (cs ++ [semicolon]) rest := by
  intro s hrest
  obtain ⟨value', s', hsame, hreach, hvalue⟩ := h s (by rw [hrest]; simp)
  refine ⟨.ret keyword value', s'.read semicolon rest, ?_, hreach.read, ?_⟩
  · unfold SameClause at hsame
    unfold SameStmt
    rw [unlabelled_ret, unlabelled_ret, hsame]
  filter_upwards [hvalue] with n hn
  unfold Parser.returnStatement
  rw [bind_of_ok hn, bind_of_ok (expect_some hreach.rest hs)]
  rfl

/-- The same first clause of a `for` up to identities. -/
def SameInit (o o' : Option Stmt) : Prop := o'.map Stmt.unlabelled = o.map Stmt.unlabelled

theorem accepts_initNone {semicolon : Token} (hs : semicolon.is .semicolon = true)
    (rest : List Token) : Accepts Parser.forInit (SameInit none) [semicolon] rest := by
  intro s hrest
  refine ⟨none, s.read semicolon rest, rfl, reaches_read s _ _, .of_forall fun n => ?_⟩
  unfold Parser.forInit
  rw [bind_of_ok (accept_some hrest hs)]
  rfl

theorem Accepts.initLet {us rest : List Token} {keyword : Token} {d : Stmt}
    (hk : keyword.is .letKw = true) (h : Accepts Parser.letDeclaration (SameStmt d) us rest) :
    Accepts Parser.forInit (SameInit (some d)) (keyword :: us) rest := by
  intro s hrest
  obtain ⟨d', s', hsame, hreach, hlet⟩ := h (s.read keyword (us ++ rest)) rfl
  refine ⟨some d', s', congrArg some hsame, (reaches_read s _ _).trans hreach, ?_⟩
  have hsemi : Without .semicolon s.rest := hrest ▸ without_of_is hk (by decide)
  filter_upwards [hlet] with n hn
  unfold Parser.forInit
  rw [bind_of_ok (accept_none hsemi)]
  dsimp only
  rw [bind_of_ok (accept_some hrest hk)]
  exact Parser.map_eq_ok.mpr ⟨d', hn, rfl⟩

theorem Accepts.initExpression {ts rest : List Token} {d : Stmt}
    (h : Accepts Parser.expressionStatement (SameStmt d) ts rest)
    (hts : Begins .expressionStatement ts) :
    Accepts Parser.forInit (SameInit (some d)) ts rest := by
  intro s hrest
  obtain ⟨d', s', hsame, hreach, hstmt⟩ := h s hrest
  refine ⟨some d', s', congrArg some hsame, hreach, ?_⟩
  have hhead : HeadIn expressionFirst s.rest := hrest ▸ (hts.append rfl).1
  filter_upwards [hstmt] with n hn
  unfold Parser.forInit
  rw [bind_of_ok (accept_none (hhead.without (by decide)))]
  dsimp only
  rw [bind_of_ok (accept_none (hhead.without (by decide)))]
  exact Parser.map_eq_ok.mpr ⟨d', hn, rfl⟩

/-! ### Functions and classes -/

theorem Names.accepts {ts names rest : List Token} (h : Names ts names)
    (hrest : Without .comma rest) :
    ∀ c, c + names.length ≤ Parser.maxArity →
      Accepts (Parser.parameters · c) (· = names) ts rest := by
  induction h with
  | @one name hn =>
    intro c hc s hs
    rw [List.length_singleton] at hc
    refine ⟨[name], s.read name rest, rfl, reaches_read s _ _,
      eventually_of_succ (.of_forall fun n => ?_)⟩
    show Parser.parameters (n + 1) c s = _
    unfold Parser.parameters
    rw [if_neg (by omega)]
    refine (bind_of_ok (expect_some hs hn)).trans ?_
    rw [bind_of_ok (accept_none hrest)]
    rfl
  | @cons name comma us names hn hcomma _ ih =>
    intro c hc s hs
    rw [List.length_cons] at hc
    obtain ⟨_, s', rfl, hreach, hmore⟩ := ih (c + 1) (by omega)
      ((s.read name (comma :: (us ++ rest))).read comma (us ++ rest)) rfl
    refine ⟨name :: _, s', rfl, (reaches_read s _ _).read.trans hreach, eventually_of_succ ?_⟩
    filter_upwards [hmore] with n h
    have hs' : s.rest = name :: comma :: (us ++ rest) := hs
    unfold Parser.parameters
    rw [if_neg (by omega)]
    refine (bind_of_ok (expect_some hs' hn)).trans ?_
    rw [bind_of_ok (accept_some rfl hcomma)]
    dsimp only
    rw [bind_of_ok h]
    rfl

theorem nameAfter_none {k : Symbol} {f : SyntaxFault} {s : State} (h : Without k s.rest) :
    Parser.nameAfter k f s = .ok none s := by
  unfold Parser.nameAfter
  rw [bind_of_ok (accept_none h)]
  rfl

theorem nameAfter_some {k : Symbol} {f : SyntaxFault} {s : State} {keyword name : Token}
    {rest : List Token} (hs : s.rest = keyword :: name :: rest) (hk : keyword.is k = true)
    (hn : name.is .identifier = true) :
    Parser.nameAfter k f s =
      .ok (some name) ((s.read keyword (name :: rest)).read name rest) := by
  unfold Parser.nameAfter
  rw [bind_of_ok (accept_some hs hk)]
  exact Parser.map_eq_ok.mpr ⟨name, expect_some rfl hn, rfl⟩

theorem Extends.accepts {ts rest : List Token} {o : Option Superclass} (h : Extends ts o)
    (hrest : Without .extendsKw rest) :
    Accepts (fun _ => Parser.superclass) (fun o' => o'.map (·.name) = o.map (·.name)) ts rest := by
  intro s hs
  cases h with
  | none =>
    refine ⟨Option.none, s, rfl, ⟨hs, rfl⟩, .of_forall fun _ => ?_⟩
    rw [List.nil_append] at hs
    show Parser.superclass s = _
    unfold Parser.superclass
    rw [bind_of_ok (nameAfter_none (hs ▸ hrest))]
    rfl
  | @some keyword name ref hk hn =>
    refine ⟨Option.some ⟨s.nextRef, name⟩, ((s.read keyword (name :: rest)).read name rest).take,
      rfl, (reaches_read s _ _).read.take, .of_forall fun _ => ?_⟩
    show Parser.superclass s = _
    unfold Parser.superclass
    rw [bind_of_ok (nameAfter_some hs hk hn)]
    rfl

theorem Implements.accepts {ts rest : List Token} {o : Option Token} (h : Implements ts o)
    (hrest : Without .implementsKw rest) :
    Accepts (fun _ => Parser.nameAfter .implementsKw .noInterfaceName) (· = o) ts rest := by
  intro s hs
  cases h with
  | none =>
    rw [List.nil_append] at hs
    exact ⟨Option.none, s, rfl, ⟨hs, rfl⟩, .of_forall fun _ => nameAfter_none (hs ▸ hrest)⟩
  | some hk hn =>
    exact ⟨_, _, rfl, (reaches_read s _ _).read, .of_forall fun _ => nameAfter_some hs hk hn⟩

/-- The same function up to identities. -/
def SameFunction (d d' : FunctionDecl) : Prop := d'.unlabelled = d.unlabelled

def SameFunctions (ds ds' : List FunctionDecl) : Prop :=
  FunctionDecl.unlabelledAll ds' = FunctionDecl.unlabelledAll ds

/-- The parameters, if there are any, and whatever follows them. -/
theorem Parameters.accepts {ps params rest : List Token} {right : Token} (h : Parameters ps params)
    (hr : right.is .rightParen = true) {s : State} (hs : s.rest = ps ++ right :: rest) :
    ∃ s', Reaches s (right :: rest) s' ∧ ∀ᶠ n in atTop,
      ∀ {β : Type} (k : List Token → Parser β),
        (if s.sees .rightParen = true then pure [] >>= k else Parser.parameters n 0 >>= k) s =
          k params s' := by
  cases h with
  | none =>
    refine ⟨s, ⟨hs, rfl⟩, .of_forall fun n β k => ?_⟩
    rw [sees_true hs hr, if_pos rfl]
    exact bind_of_ok rfl
  | some h hlen =>
    have hlen : 0 + params.length ≤ Parser.maxArity := by rwa [Nat.zero_add, maxArity_eq]
    obtain ⟨_, s', rfl, hreach, hn⟩ := h.accepts (without_of_is hr (by decide)) 0 hlen s hs
    refine ⟨s', hreach, ?_⟩
    have hhead : Without .rightParen s.rest := by
      rw [hs]
      cases h with
      | one hname => exact without_of_is hname (by decide)
      | cons hname _ _ => exact without_of_is hname (by decide)
    filter_upwards [hn] with n hn β k
    rw [sees_false hhead, if_neg Bool.false_ne_true]
    exact bind_of_ok hn

theorem accepts_function {ps us rest : List Token} {name left right brace : Token}
    {params : List Token} {body : List Stmt} (form : FunctionForm)
    (hn : name.is .identifier = true) (hl : left.is .leftParen = true) (hp : Parameters ps params)
    (hr : right.is .rightParen = true) (hbrace : brace.is .leftBrace = true)
    (hb : Accepts Parser.block (SameStmts body) us rest) :
    Accepts (Parser.function · form) (SameFunction ⟨name, params, body⟩)
      (name :: left :: (ps ++ right :: brace :: us)) rest := by
  intro s hs
  simp only [List.cons_append, List.append_assoc] at hs
  obtain ⟨s₁, hreach₁, hparams⟩ := hp.accepts hr
    (s := (s.read name (left :: (ps ++ right :: brace :: (us ++ rest)))).read left
      (ps ++ right :: brace :: (us ++ rest))) rfl
  obtain ⟨body', s₂, hsame, hreach₂, hblock⟩ := hb
    ((s₁.read right (brace :: (us ++ rest))).read brace (us ++ rest)) rfl
  refine ⟨⟨name, params, body'⟩, s₂, congrArg (FunctionDecl.mk name params) hsame,
    ((reaches_read s _ _).read.trans hreach₁).read.read.trans hreach₂, eventually_of_succ ?_⟩
  filter_upwards [hparams, hblock] with n h₁ h₂
  unfold Parser.function
  rw [bind_of_ok (expect_some hs hn), bind_of_ok (expect_some rfl hl),
    bind_of_ok (show Parser.sees .rightParen _ = .ok _ _ from rfl)]
  refine (h₁ _).trans ((bind_of_ok (expect_some hreach₁.rest hr)).trans ?_)
  rw [bind_of_ok (expect_some rfl hbrace), bind_of_ok h₂]
  rfl

theorem accepts_noMethod {brace : Token} (hb : brace.is .rightBrace = true) (rest : List Token) :
    Accepts Parser.methods (SameFunctions []) [] (brace :: rest) := by
  intro s hs
  refine ⟨[], s, rfl, ⟨hs, rfl⟩, eventually_of_succ (.of_forall fun n => ?_)⟩
  unfold Parser.methods
  rw [bind_of_ok (show Parser.sees .rightBrace s = .ok _ _ from rfl),
    bind_of_ok (show Parser.atEnd s = .ok _ _ from rfl), sees_true hs hb]
  rfl

theorem atEnd_false {s : State} {t : Token} {rest : List Token} (hs : s.rest = t :: rest)
    (ht : t.is .endOfText = false) : s.atEnd = false := by
  unfold State.atEnd
  rw [hs]
  exact ht

theorem Begins.atEnd {r : Rule} {ts rest : List Token} {s : State} (h : Begins r ts)
    (hr : r.nullable = false) (hk : .endOfText ∉ r.first) (hs : s.rest = ts ++ rest) :
    s.atEnd = false := by
  cases ts with
  | nil => exact absurd rfl (h.2 hr)
  | cons t ts => exact atEnd_false hs (h.1.without hk t rfl)

theorem Accepts.moreMethods {ts us rest : List Token} {d : FunctionDecl} {ds : List FunctionDecl}
    (hts : Begins .function ts)
    (h : Accepts (Parser.function · .method) (SameFunction d) ts (us ++ rest))
    (hm : Accepts Parser.methods (SameFunctions ds) us rest) :
    Accepts Parser.methods (SameFunctions (d :: ds)) (ts ++ us) rest := by
  intro s hs
  rw [List.append_assoc] at hs
  obtain ⟨d', s₁, hsame, hreach₁, hfn⟩ := h s hs
  obtain ⟨ds', s₂, hsames, hreach₂, hmethods⟩ := hm s₁ hreach₁.rest
  refine ⟨d' :: ds', s₂, ?_, hreach₁.trans hreach₂, eventually_of_succ ?_⟩
  · unfold SameFunction at hsame
    unfold SameFunctions at hsames ⊢
    simp only [FunctionDecl.unlabelledAll, hsame, hsames]
  have hbrace : Without .rightBrace s.rest := hs ▸ (hts.append rfl).1.without (by decide)
  filter_upwards [hfn, hmethods] with n h₁ h₂
  unfold Parser.methods
  rw [bind_of_ok (show Parser.sees .rightBrace s = .ok _ _ from rfl),
    bind_of_ok (show Parser.atEnd s = .ok _ _ from rfl), sees_false hbrace,
    hts.atEnd rfl (by decide) hs, if_neg (by decide), bind_of_ok h₁, bind_of_ok h₂]
  rfl

theorem accepts_class {xs is ms rest : List Token} {name left right : Token}
    {superclass : Option Superclass} {interface : Option Token} {methods : List FunctionDecl}
    (hn : name.is .identifier = true) (hx : Extends xs superclass) (hi : Implements is interface)
    (hl : left.is .leftBrace = true) (hr : right.is .rightBrace = true)
    (hm : Accepts Parser.methods (SameFunctions methods) ms (right :: rest)) :
    Accepts Parser.classDeclaration
      (SameStmt (.classDecl ⟨name, superclass, interface, methods⟩))
      (name :: (xs ++ (is ++ left :: (ms ++ [right])))) rest := by
  intro s hs
  simp only [List.cons_append, List.append_assoc, List.nil_append] at hs
  have hinterface : Without .implementsKw (left :: (ms ++ right :: rest)) :=
    without_of_is hl (by decide)
  have hextends : Without .extendsKw (is ++ left :: (ms ++ right :: rest)) := by
    cases hi with
    | none => exact without_of_is hl (by decide)
    | some hk _ => exact without_of_is hk (by decide)
  obtain ⟨superclass', s₁, hsuper, hreach₁, h₁⟩ := hx.accepts hextends
    (s.read name (xs ++ (is ++ left :: (ms ++ right :: rest)))) rfl
  obtain ⟨interface', s₂, heq, hreach₂, h₂⟩ := hi.accepts hinterface s₁ hreach₁.rest
  obtain ⟨methods', s₃, hmethods, hreach₃, h₃⟩ := hm (s₂.read left (ms ++ right :: rest)) rfl
  refine ⟨.classDecl ⟨name, superclass', interface', methods'⟩, s₃.read right rest, ?_,
    ((((reaches_read s _ _).trans hreach₁).trans hreach₂).read.trans hreach₃).read,
    eventually_of_succ ?_⟩
  · unfold SameStmt
    unfold SameFunctions at hmethods
    simp only [Stmt.unlabelled, ClassDecl.unlabelled, hmethods, heq]
    cases superclass' <;> cases superclass <;> simp_all
  filter_upwards [h₁, h₂, h₃] with n h₁ h₂ h₃
  unfold Parser.classDeclaration
  rw [bind_of_ok (expect_some hs hn), bind_of_ok h₁, bind_of_ok h₂,
    bind_of_ok (expect_some hreach₂.rest hl), bind_of_ok h₃,
    bind_of_ok (expect_some hreach₃.rest hr)]
  rfl

/-! ### Lists of declarations -/

/-- Where a list of declarations ends: at the end of the text, inside a block at a brace. -/
def Closes (inBlock : Bool) (rest : List Token) : Prop :=
  ∃ t rest', rest = t :: rest' ∧
    (t.is .endOfText = true ∨ inBlock = true ∧ t.is .rightBrace = true)

theorem Closes.without {b : Bool} {rest : List Token} (h : Closes b rest) {k : Symbol}
    (he : k ≠ .endOfText) (hb : k ≠ .rightBrace) : Without k rest := by
  obtain ⟨t, rest', rfl, ht | ⟨-, ht⟩⟩ := h
  · exact without_of_is ht he.symm
  · exact without_of_is ht hb.symm

/-- There is no declaration left to read. -/
theorem declarations_closed {n : Nat} {b : Bool} {s : State}
    (h : (s.atEnd || (b && s.sees .rightBrace)) = true) :
    Parser.declarations (n + 1) b s = .ok [] s := by
  unfold Parser.declarations
  rw [bind_of_ok (show Parser.atEnd s = .ok _ _ from rfl),
    bind_of_ok (show Parser.sees .rightBrace s = .ok _ _ from rfl), if_pos h]
  rfl

theorem Closes.accepts {b : Bool} {rest : List Token} (h : Closes b rest) :
    Accepts (Parser.declarations · b) (SameStmts []) [] rest := by
  intro s hs
  refine ⟨[], s, rfl, ⟨hs, rfl⟩, eventually_of_succ (.of_forall fun n => ?_)⟩
  have hclosed : (s.atEnd || (b && s.sees .rightBrace)) = true := by
    obtain ⟨t, rest', rfl, ht | ⟨rfl, ht⟩⟩ := h
    · have : s.atEnd = true := by unfold State.atEnd; rw [hs]; exact ht
      rw [this, Bool.true_or]
    · rw [sees_true hs ht]
      simp
  exact declarations_closed hclosed

/-- Where a declaration begins, the list of declarations does not end. -/
theorem Begins.isOpen {ts rest : List Token} (h : Begins .declaration ts) {s : State}
    (hs : s.rest = ts ++ rest) (b : Bool) : (s.atEnd || (b && s.sees .rightBrace)) = false := by
  have hbrace : Without .rightBrace s.rest := hs ▸ (h.append rfl).1.without (by decide)
  rw [h.atEnd rfl (by decide) hs, sees_false hbrace]
  simp

/-- One declaration has been read, and the others follow. -/
theorem declarations_cons {n : Nat} {b : Bool} {s s' u : State} {d : Stmt} {ds : List Stmt}
    (hopen : (s.atEnd || (b && s.sees .rightBrace)) = false)
    (hd : Parser.declaration n s = .ok d s') (hds : Parser.declarations n b s' = .ok ds u) :
    Parser.declarations (n + 1) b s = .ok (d :: ds) u := by
  have hrecover : Parser.recover (Parser.declaration n) s = .ok (some d) s' := by
    unfold Parser.recover
    rw [hd]
  unfold Parser.declarations
  rw [bind_of_ok (show Parser.atEnd s = .ok _ _ from rfl),
    bind_of_ok (show Parser.sees .rightBrace s = .ok _ _ from rfl), hopen]
  simp only [Bool.false_eq_true, if_false]
  rw [bind_of_ok hrecover]
  dsimp only
  rw [bind_of_ok hds]
  rfl

theorem Accepts.moreDeclarations {ts us rest : List Token} {b : Bool} {d : Stmt} {ds : List Stmt}
    (hts : Begins .declaration ts)
    (h : Accepts Parser.declaration (SameStmt d) ts (us ++ rest))
    (hds : Accepts (Parser.declarations · b) (SameStmts ds) us rest) :
    Accepts (Parser.declarations · b) (SameStmts (d :: ds)) (ts ++ us) rest := by
  intro s hs
  rw [List.append_assoc] at hs
  obtain ⟨d', s₁, hsame, hreach₁, hdecl⟩ := h s hs
  obtain ⟨ds', s₂, hsames, hreach₂, hmore⟩ := hds s₁ hreach₁.rest
  refine ⟨d' :: ds', s₂, ?_, hreach₁.trans hreach₂, eventually_of_succ ?_⟩
  · unfold SameStmt at hsame
    unfold SameStmts at hsames ⊢
    simp only [Stmt.unlabelledAll, hsame, hsames]
  filter_upwards [hdecl, hmore] with n h₁ h₂
  exact declarations_cons (hts.isOpen hs b) h₁ h₂

theorem Accepts.block {ts rest : List Token} {right : Token} {ds : List Stmt}
    (hr : right.is .rightBrace = true)
    (h : Accepts (Parser.declarations · true) (SameStmts ds) ts (right :: rest)) :
    Accepts Parser.block (SameStmts ds) (ts ++ [right]) rest := by
  intro s hs
  obtain ⟨ds', s', hsame, hreach, hds⟩ := h s (by rw [hs]; simp)
  refine ⟨ds', s'.read right rest, hsame, hreach.read, eventually_of_succ ?_⟩
  filter_upwards [hds] with n hn
  unfold Parser.block
  rw [bind_of_ok hn, bind_of_ok (expect_some hreach.rest hr)]
  rfl

/-! ### The choice of a declaration -/

theorem Accepts.classDeclaration {us rest : List Token} {keyword : Token} {d : Stmt}
    (hk : keyword.is .classKw = true) (h : Accepts Parser.classDeclaration (SameStmt d) us rest) :
    Accepts Parser.declaration (SameStmt d) (keyword :: us) rest := by
  intro s hs
  obtain ⟨d', s', hsame, hreach, hn⟩ := h (s.read keyword (us ++ rest)) rfl
  refine ⟨d', s', hsame, (reaches_read s _ _).trans hreach, eventually_of_succ ?_⟩
  filter_upwards [hn] with n hn
  unfold Parser.declaration
  rw [bind_of_ok (accept_some hs hk)]
  exact hn

theorem Accepts.functionDeclaration {us rest : List Token} {keyword : Token} {d : FunctionDecl}
    (hk : keyword.is .functionKw = true)
    (h : Accepts (Parser.function · .function) (SameFunction d) us rest) :
    Accepts Parser.declaration (SameStmt (.function d)) (keyword :: us) rest := by
  intro s hs
  obtain ⟨d', s', hsame, hreach, hn⟩ := h (s.read keyword (us ++ rest)) rfl
  refine ⟨.function d', s', congrArg Stmt.function hsame, (reaches_read s _ _).trans hreach,
    eventually_of_succ ?_⟩
  have hclass : Without .classKw s.rest := hs ▸ without_of_is hk (by decide)
  filter_upwards [hn] with n hn
  unfold Parser.declaration
  rw [bind_of_ok (accept_none hclass)]
  dsimp only
  rw [bind_of_ok (accept_some hs hk)]
  exact bind_of_ok hn

theorem Accepts.variableDeclaration {us rest : List Token} {keyword : Token} {d : Stmt}
    (hk : keyword.is .letKw = true) (h : Accepts Parser.letDeclaration (SameStmt d) us rest) :
    Accepts Parser.declaration (SameStmt d) (keyword :: us) rest := by
  intro s hs
  obtain ⟨d', s', hsame, hreach, hn⟩ := h (s.read keyword (us ++ rest)) rfl
  refine ⟨d', s', hsame, (reaches_read s _ _).trans hreach, eventually_of_succ ?_⟩
  have hclass : Without .classKw s.rest := hs ▸ without_of_is hk (by decide)
  have hfunction : Without .functionKw s.rest := hs ▸ without_of_is hk (by decide)
  filter_upwards [hn] with n hn
  unfold Parser.declaration
  rw [bind_of_ok (accept_none hclass)]
  dsimp only
  rw [bind_of_ok (accept_none hfunction)]
  dsimp only
  rw [bind_of_ok (accept_some hs hk)]
  exact hn

theorem declaration_statement {n : Nat} {s : State} (h : HeadIn statementFirst s.rest) :
    Parser.declaration (n + 1) s = Parser.statement n s := by
  unfold Parser.declaration
  rw [bind_of_ok (accept_none (h.without (by decide)))]
  dsimp only
  rw [bind_of_ok (accept_none (h.without (by decide)))]
  dsimp only
  rw [bind_of_ok (accept_none (h.without (by decide)))]

theorem Accepts.declaration {ts rest : List Token} {d : Stmt} {dangling : Bool}
    (hts : Begins (.statement dangling) ts)
    (h : Accepts Parser.statement (SameStmt d) ts rest) :
    Accepts Parser.declaration (SameStmt d) ts rest := by
  intro s hs
  obtain ⟨d', s', hsame, hreach, hn⟩ := h s hs
  refine ⟨d', s', hsame, hreach, eventually_of_succ ?_⟩
  have hhead : HeadIn statementFirst s.rest := hs ▸ (hts.append rfl).1
  filter_upwards [hn] with n hn
  rw [declaration_statement hhead, hn]

/-! ### The choice of a statement -/

theorem statement_expression {n : Nat} {s : State} (h : HeadIn expressionFirst s.rest) :
    Parser.statement (n + 1) s = Parser.expressionStatement n s := by
  unfold Parser.statement
  rw [bind_of_ok (accept_none (h.without (by decide)))]
  dsimp only
  rw [bind_of_ok (accept_none (h.without (by decide)))]
  dsimp only
  rw [bind_of_ok (accept_none (h.without (by decide)))]
  dsimp only
  rw [bind_of_ok (accept_none (h.without (by decide)))]
  dsimp only
  rw [bind_of_ok (accept_none (h.without (by decide)))]

theorem Accepts.exprStatement {ts rest : List Token} {d : Stmt}
    (hts : Begins .expressionStatement ts)
    (h : Accepts Parser.expressionStatement (SameStmt d) ts rest) :
    Accepts Parser.statement (SameStmt d) ts rest := by
  intro s hs
  obtain ⟨d', s', hsame, hreach, hn⟩ := h s hs
  refine ⟨d', s', hsame, hreach, eventually_of_succ ?_⟩
  have hhead : HeadIn expressionFirst s.rest := hs ▸ (hts.append rfl).1
  filter_upwards [hn] with n hn
  rw [statement_expression hhead, hn]

theorem statement_for {n : Nat} {s : State} {t : Token} {rest : List Token}
    (hs : s.rest = t :: rest) (ht : t.is .forKw = true) :
    Parser.statement (n + 1) s = Parser.forStatement n (s.read t rest) := by
  unfold Parser.statement
  rw [bind_of_ok (accept_some hs ht)]

theorem statement_if {n : Nat} {s : State} {t : Token} {rest : List Token}
    (hs : s.rest = t :: rest) (ht : t.is .ifKw = true) :
    Parser.statement (n + 1) s = Parser.ifStatement n (s.read t rest) := by
  unfold Parser.statement
  rw [bind_of_ok (accept_none (hs ▸ without_of_is ht (by decide)))]
  dsimp only
  rw [bind_of_ok (accept_some hs ht)]

theorem statement_return {n : Nat} {s : State} {t : Token} {rest : List Token}
    (hs : s.rest = t :: rest) (ht : t.is .returnKw = true) :
    Parser.statement (n + 1) s = Parser.returnStatement n t (s.read t rest) := by
  unfold Parser.statement
  rw [bind_of_ok (accept_none (hs ▸ without_of_is ht (by decide)))]
  dsimp only
  rw [bind_of_ok (accept_none (hs ▸ without_of_is ht (by decide)))]
  dsimp only
  rw [bind_of_ok (accept_some hs ht)]

theorem statement_while {n : Nat} {s : State} {t : Token} {rest : List Token}
    (hs : s.rest = t :: rest) (ht : t.is .whileKw = true) :
    Parser.statement (n + 1) s = Parser.whileStatement n (s.read t rest) := by
  unfold Parser.statement
  rw [bind_of_ok (accept_none (hs ▸ without_of_is ht (by decide)))]
  dsimp only
  rw [bind_of_ok (accept_none (hs ▸ without_of_is ht (by decide)))]
  dsimp only
  rw [bind_of_ok (accept_none (hs ▸ without_of_is ht (by decide)))]
  dsimp only
  rw [bind_of_ok (accept_some hs ht)]

theorem statement_block {n : Nat} {s : State} {t : Token} {rest : List Token}
    (hs : s.rest = t :: rest) (ht : t.is .leftBrace = true) :
    Parser.statement (n + 1) s = (Stmt.block <$> Parser.block n : Parser Stmt) (s.read t rest) := by
  unfold Parser.statement
  rw [bind_of_ok (accept_none (hs ▸ without_of_is ht (by decide)))]
  dsimp only
  rw [bind_of_ok (accept_none (hs ▸ without_of_is ht (by decide)))]
  dsimp only
  rw [bind_of_ok (accept_none (hs ▸ without_of_is ht (by decide)))]
  dsimp only
  rw [bind_of_ok (accept_none (hs ▸ without_of_is ht (by decide)))]
  dsimp only
  rw [bind_of_ok (accept_some hs ht)]
  rfl

/-- A statement that is chosen by its keyword is accepted when the rest of it is. -/
theorem Accepts.chosen {p : Nat → Parser Stmt} {us rest : List Token} {keyword : Token} {d : Stmt}
    (hp : ∀ n s rest, s.rest = keyword :: rest →
      Parser.statement (n + 1) s = p n (s.read keyword rest))
    (h : Accepts p (SameStmt d) us rest) :
    Accepts Parser.statement (SameStmt d) (keyword :: us) rest := by
  intro s hs
  obtain ⟨d', s', hsame, hreach, hn⟩ := h (s.read keyword (us ++ rest)) rfl
  refine ⟨d', s', hsame, (reaches_read s _ _).trans hreach, eventually_of_succ ?_⟩
  filter_upwards [hn] with n hn
  rw [hp n s (us ++ rest) hs, hn]

theorem accepts_for {is cs ss bs rest : List Token} {left semicolon right : Token}
    {init : Option Stmt} {cond step : Option Expr} {body : Stmt} (hl : left.is .leftParen = true)
    (hs : semicolon.is .semicolon = true) (hr : right.is .rightParen = true)
    (hi : Accepts Parser.forInit (SameInit init) is
      (cs ++ semicolon :: (ss ++ right :: (bs ++ rest))))
    (hc : Accepts (Parser.expressionUnless · .semicolon) (SameClause cond) cs
      (semicolon :: (ss ++ right :: (bs ++ rest))))
    (ht : Accepts (Parser.expressionUnless · .rightParen) (SameClause step) ss
      (right :: (bs ++ rest)))
    (hb : Accepts Parser.statement (SameStmt body) bs rest) :
    Accepts Parser.forStatement (SameStmt (Parser.forLoop init cond step body))
      (left :: (is ++ (cs ++ semicolon :: (ss ++ right :: bs)))) rest := by
  intro s hrest
  simp only [List.cons_append, List.append_assoc] at hrest
  obtain ⟨init', s₁, hinit, hreach₁, h₁⟩ :=
    hi (s.read left (is ++ (cs ++ semicolon :: (ss ++ right :: (bs ++ rest))))) rfl
  obtain ⟨cond', s₂, hcond, hreach₂, h₂⟩ := hc s₁ hreach₁.rest
  obtain ⟨step', s₃, hstep, hreach₃, h₃⟩ :=
    ht (s₂.read semicolon (ss ++ right :: (bs ++ rest))) rfl
  obtain ⟨body', s₄, hbody, hreach₄, h₄⟩ := hb (s₃.read right (bs ++ rest)) rfl
  refine ⟨Parser.forLoop init' cond' step' body', s₄, ?_,
    ((((reaches_read s _ _).trans hreach₁).trans hreach₂).read.trans hreach₃).read.trans hreach₄,
    eventually_of_succ ?_⟩
  · unfold SameStmt SameInit SameClause at *
    rw [forLoop_unlabelled, forLoop_unlabelled, hinit, hcond, hstep, hbody]
  filter_upwards [h₁, h₂, h₃, h₄] with n h₁ h₂ h₃ h₄
  unfold Parser.forStatement
  rw [bind_of_ok (expect_some hrest hl), bind_of_ok h₁, bind_of_ok h₂,
    bind_of_ok (expect_some hreach₂.rest hs), bind_of_ok h₃,
    bind_of_ok (expect_some hreach₃.rest hr), bind_of_ok h₄]
  rfl

theorem accepts_ifThen {cs ts rest : List Token} {left right : Token} {cond : Expr} {thenDo : Stmt}
    (hl : left.is .leftParen = true) (hr : right.is .rightParen = true)
    (hc : Accepts Parser.expression (SameExpr cond) cs (right :: (ts ++ rest)))
    (ht : Accepts Parser.statement (SameStmt thenDo) ts rest) (hrest : Without .elseKw rest) :
    Accepts Parser.ifStatement (SameStmt (.branch cond thenDo none))
      (left :: (cs ++ right :: ts)) rest := by
  intro s hs
  simp only [List.cons_append, List.append_assoc] at hs
  obtain ⟨cond', s₁, hcond, hreach₁, h₁⟩ := hc (s.read left (cs ++ right :: (ts ++ rest))) rfl
  obtain ⟨thenDo', s₂, hthen, hreach₂, h₂⟩ := ht (s₁.read right (ts ++ rest)) rfl
  refine ⟨.branch cond' thenDo' none, s₂, ?_,
    ((reaches_read s _ _).trans hreach₁).read.trans hreach₂, eventually_of_succ ?_⟩
  · unfold SameStmt SameExpr at *
    simp only [Stmt.unlabelled, hcond, hthen]
  filter_upwards [h₁, h₂] with n h₁ h₂
  unfold Parser.ifStatement
  rw [bind_of_ok (expect_some hs hl), bind_of_ok h₁, bind_of_ok (expect_some hreach₁.rest hr),
    bind_of_ok h₂, bind_of_ok (accept_none (hreach₂.rest ▸ hrest))]
  rfl

theorem accepts_ifThenElse {cs ts es rest : List Token} {left right other : Token} {cond : Expr}
    {thenDo elseDo : Stmt} (hl : left.is .leftParen = true) (hr : right.is .rightParen = true)
    (ho : other.is .elseKw = true)
    (hc : Accepts Parser.expression (SameExpr cond) cs (right :: (ts ++ other :: (es ++ rest))))
    (ht : Accepts Parser.statement (SameStmt thenDo) ts (other :: (es ++ rest)))
    (he : Accepts Parser.statement (SameStmt elseDo) es rest) :
    Accepts Parser.ifStatement (SameStmt (.branch cond thenDo (some elseDo)))
      (left :: (cs ++ right :: (ts ++ other :: es))) rest := by
  intro s hs
  simp only [List.cons_append, List.append_assoc] at hs
  obtain ⟨cond', s₁, hcond, hreach₁, h₁⟩ :=
    hc (s.read left (cs ++ right :: (ts ++ other :: (es ++ rest)))) rfl
  obtain ⟨thenDo', s₂, hthen, hreach₂, h₂⟩ :=
    ht (s₁.read right (ts ++ other :: (es ++ rest))) rfl
  obtain ⟨elseDo', s₃, helse, hreach₃, h₃⟩ := he (s₂.read other (es ++ rest)) rfl
  refine ⟨.branch cond' thenDo' (some elseDo'), s₃, ?_,
    (((reaches_read s _ _).trans hreach₁).read.trans hreach₂).read.trans hreach₃,
    eventually_of_succ ?_⟩
  · unfold SameStmt SameExpr at *
    simp only [Stmt.unlabelled, hcond, hthen, helse]
  filter_upwards [h₁, h₂, h₃] with n h₁ h₂ h₃
  unfold Parser.ifStatement
  rw [bind_of_ok (expect_some hs hl), bind_of_ok h₁, bind_of_ok (expect_some hreach₁.rest hr),
    bind_of_ok h₂, bind_of_ok (accept_some hreach₂.rest ho)]
  dsimp only
  rw [bind_of_ok h₃]
  rfl

theorem accepts_while {cs bs rest : List Token} {left right : Token} {cond : Expr} {body : Stmt}
    (hl : left.is .leftParen = true) (hr : right.is .rightParen = true)
    (hc : Accepts Parser.expression (SameExpr cond) cs (right :: (bs ++ rest)))
    (hb : Accepts Parser.statement (SameStmt body) bs rest) :
    Accepts Parser.whileStatement (SameStmt (.loop cond body)) (left :: (cs ++ right :: bs))
      rest := by
  intro s hs
  simp only [List.cons_append, List.append_assoc] at hs
  obtain ⟨cond', s₁, hcond, hreach₁, h₁⟩ := hc (s.read left (cs ++ right :: (bs ++ rest))) rfl
  obtain ⟨body', s₂, hbody, hreach₂, h₂⟩ := hb (s₁.read right (bs ++ rest)) rfl
  refine ⟨.loop cond' body', s₂, ?_,
    ((reaches_read s _ _).trans hreach₁).read.trans hreach₂, eventually_of_succ ?_⟩
  · unfold SameStmt SameExpr at *
    simp only [Stmt.unlabelled, hcond, hbody]
  filter_upwards [h₁, h₂] with n h₁ h₂
  unfold Parser.whileStatement
  rw [bind_of_ok (expect_some hs hl), bind_of_ok h₁, bind_of_ok (expect_some hreach₁.rest hr),
    bind_of_ok h₂]
  rfl

/-! ## Derivations -/

/-- The parser accepts what derives from a rule, provided that it goes no further. -/
def Complete : (r : Rule) → List Token → r.Tree → Prop
  | .expression, ts, e => ∀ rest, Stops .expression rest →
    Accepts Parser.expression (SameExpr e) ts rest
  | .level l, ts, e => ∀ rest, Stops (.operand l) rest →
    Leads (Parser.level · l) (Parser.more · l) (SameExpr e) ts rest
  | .operand l, ts, e => ∀ rest, Stops (.operand l) rest →
    Accepts (Parser.operand · l) (SameExpr e) ts rest
  | .unary, ts, e => ∀ rest, Stops .unary rest → Accepts Parser.unary (SameExpr e) ts rest
  | .call, ts, e => ∀ rest, Leads Parser.call Parser.suffixes (SameExpr e) ts rest
  | .primary, ts, e => ∀ rest, Leads Parser.call Parser.suffixes (SameExpr e) ts rest
  | .arguments, ts, es => ∀ c rest, c + es.length ≤ Parser.maxArity → Stops .arguments rest →
    Accepts (Parser.arguments · c) (SameExprs es) ts rest
  | .clause, ts, o => ∀ k t rest, k ∉ expressionFirst → k ∉ Rule.expression.continues →
    t.is k = true → Accepts (Parser.expressionUnless · k) (SameClause o) ts (t :: rest)
  | .declarations, ts, ds => ∀ b rest, Closes b rest →
    Accepts (Parser.declarations · b) (SameStmts ds) ts rest
  | .declaration, ts, d => ∀ rest, Stops .declaration rest →
    Accepts Parser.declaration (SameStmt d) ts rest
  | .letDeclaration, ts, d => ∃ keyword us, ts = keyword :: us ∧ keyword.is .letKw = true ∧
    ∀ rest, Accepts Parser.letDeclaration (SameStmt d) us rest
  | .expressionStatement, ts, d => ∀ rest,
    Accepts Parser.expressionStatement (SameStmt d) ts rest
  | .forInit, ts, init => ∀ rest, Accepts Parser.forInit (SameInit init) ts rest
  | .function, ts, d => ∀ form rest, Accepts (Parser.function · form) (SameFunction d) ts rest
  | .methods, ts, ds => ∀ brace rest, brace.is .rightBrace = true →
    Accepts Parser.methods (SameFunctions ds) ts (brace :: rest)
  | .block, ts, ds => ∃ left us, ts = left :: us ∧ left.is .leftBrace = true ∧
    ∀ rest, Accepts Parser.block (SameStmts ds) us rest
  | .statement dangling, ts, d => ∀ rest, Stops (.statement dangling) rest →
    Accepts Parser.statement (SameStmt d) ts rest

theorem stops_operand {l l' : Level} {rest : List Token} (hl : l.tighter = some l')
    (h : Stops (.operand l) rest) : Stops (.level l') rest := by
  have hr := Level.rank_tighter hl
  exact h.mono (tightSymbols_mono (by omega))

theorem stops_level {l : Level} {rest : List Token} (h : Stops (.level l) rest) :
    Stops (.operand l) rest := h.mono (tightSymbols_mono (Nat.le_succ _))

theorem without_else {us rest : List Token} {ds : List Stmt} (h : Derives .declarations us ds)
    (hrest : Without .elseKw rest) : Stops .declaration (us ++ rest) := by
  intro k hk
  rw [List.mem_singleton.mp hk]
  cases us with
  | nil => exact hrest
  | cons u us => exact h.begins.1.without (by decide)

/-- **What derives from a rule is accepted by it**, with the tree of the derivation. -/
theorem Derives.complete {r : Rule} {ts : List Token} {t : r.Tree} (h : Derives r ts t) :
    Complete r ts t := by
  induction h with
  | assignName ref hl he hv ihl ihv =>
    intro rest hstop
    exact (Leads.loosest (ihl _) hl.begins (stops_of_is he (by decide))).assignName he ref
      (ihv rest hstop)
  | assignProperty hl he hv ihl ihv =>
    intro rest hstop
    exact (Leads.loosest (ihl _) hl.begins (stops_of_is he (by decide))).assignProperty he
      (ihv rest hstop)
  | loosest h ih =>
    intro rest hstop
    have hlevel : Stops (.level .or) rest := hstop.mono fun _ hk => .tail _ hk
    exact ((ih rest (stops_level hlevel)).level hlevel).plain (hstop _ List.mem_cons_self)
  | join hl ho hr ihl ihr =>
    intro rest hstop
    obtain ⟨hop, rfl⟩ := joins_iff.mp ho
    exact (ihl _ (stops_operator hop)).join hop (ihr rest hstop)
  | single h ih => exact fun rest hstop => (ih rest hstop).single
  | tighter hl h ih =>
    intro rest hstop
    have hl := tighter_iff.mp hl
    have hlevel := stops_operand hl hstop
    exact ((ih rest (stops_level hlevel)).level hlevel).tighter hl
  | tightest h ih =>
    intro rest hstop
    exact (ih rest (hstop.mono (tightSymbols_mono (by decide)))).tightest rfl
  | operator ho h ih => exact fun rest hstop => (ih rest hstop).operator ho
  | bare h ih => exact fun rest hstop => (ih rest).unary h.begins hstop
  | applyNone hc hl hr ih => exact fun rest => (ih _).applyNone hl hr
  | @apply _ _ _ _ _ args hc hl ha hlen hr ihc iha =>
    intro rest
    have hlen : 0 + args.length ≤ Parser.maxArity := by rwa [Nat.zero_add, maxArity_eq]
    exact (ihc _).apply hl hr (iha 0 _ hlen (stops_of_is hr (by decide)))
      ((ha.begins.append rfl).1.without (by decide))
  | get ho hd hn hc ih => exact fun rest => (ih _).get hd hn hc
  | plain h ih => exact ih
  | lastArgument h ih =>
    intro c rest hlen hstop
    rw [List.length_singleton] at hlen
    exact (ih rest (hstop.mono fun _ hk => .tail _ hk)).lastArgument (by omega)
      (hstop _ List.mem_cons_self)
  | argument h hc hs ih ihs =>
    intro c rest hlen hstop
    rw [List.length_cons] at hlen
    exact (ih _ (stops_of_is hc (by decide))).argument (by omega) hc (ihs _ rest (by omega) hstop)
  | number h =>
    exact fun rest => (accepts_literal fun n s hs => by
      unfold Parser.primary; rw [hs]; simp only [h]; rfl).call
  | string h =>
    exact fun rest => (accepts_literal fun n s hs => by
      unfold Parser.primary; rw [hs]; simp only [h]; rfl).call
  | falsity h =>
    exact fun rest => (accepts_literal fun n s hs => by
      unfold Parser.primary; rw [hs]; simp only [kind_of_is h]; rfl).call
  | truth h =>
    exact fun rest => (accepts_literal fun n s hs => by
      unfold Parser.primary; rw [hs]; simp only [kind_of_is h]; rfl).call
  | null h =>
    exact fun rest => (accepts_literal fun n s hs => by
      unfold Parser.primary; rw [hs]; simp only [kind_of_is h]; rfl).call
  | undefined h =>
    exact fun rest => (accepts_literal fun n s hs => by
      unfold Parser.primary; rw [hs]; simp only [kind_of_is h]; rfl).call
  | super ref hk hd hm => exact fun rest => (accepts_super hk hd hm ref rest).call
  | this ref h => exact fun rest => (accepts_this h ref rest).call
  | name ref h => exact fun rest => (accepts_name h ref rest).call
  | group hl h hr ih =>
    exact fun rest => (accepts_group hl hr (ih _ (stops_of_is hr (by decide)))).call
  | new hk h ih => exact fun rest => leads_new hk (ih rest)
  | noClause => exact fun k t rest _ _ ht => accepts_noClause ht
  | someClause h ih =>
    exact fun k t rest hk hk' ht => (ih _ (stops_of_is ht hk')).someClause h.begins hk
  | noDeclaration => exact fun b rest hclose => hclose.accepts
  | moreDeclarations h hs ih ihs =>
    intro b rest hclose
    have hstop := without_else hs (hclose.without (by decide) (by decide))
    exact (ih _ hstop).moreDeclarations h.begins (ihs b rest hclose)
  | classDeclaration hk hn hx hi hl hm hr ih =>
    exact fun rest _ => (accepts_class hn hx hi hl hr (ih _ rest hr)).classDeclaration hk
  | functionDeclaration hk h ih => exact fun rest _ => (ih _ rest).functionDeclaration hk
  | variableDeclaration h ih =>
    obtain ⟨keyword, us, rfl, hk, hlet⟩ := ih
    exact fun rest _ => (hlet rest).variableDeclaration hk
  | @statement dangling ts d h ih =>
    intro rest hstop
    refine (ih rest ?_).declaration h.begins
    cases dangling with
    | true => exact hstop
    | false => exact stops_closed rest
  | declare hk hn hs => exact ⟨_, _, rfl, hk, accepts_declare hn hs⟩
  | declareInit hk hn he h hs ih =>
    exact ⟨_, _, rfl, hk, fun rest =>
      (ih _ (stops_of_is hs (by decide))).declareInit hn he hs⟩
  | evaluate h hs ih => exact fun rest => (ih _ (stops_of_is hs (by decide))).evaluate hs
  | initNone hs => exact accepts_initNone hs
  | initLet h ih =>
    obtain ⟨keyword, us, rfl, hk, hlet⟩ := ih
    exact fun rest => (hlet rest).initLet hk
  | initExpression h ih => exact fun rest => (ih rest).initExpression h.begins
  | function hn hl hp hr hb ih =>
    obtain ⟨brace, us, rfl, hbrace, hblock⟩ := ih
    exact fun form rest => accepts_function form hn hl hp hr hbrace (hblock rest)
  | noMethod => exact fun brace rest hb => accepts_noMethod hb rest
  | moreMethods h hs ih ihs =>
    exact fun brace rest hb => (ih _ _).moreMethods h.begins (ihs brace rest hb)
  | block hl h hr ih =>
    exact ⟨_, _, rfl, hl, fun rest => (ih true _ ⟨_, _, rfl, .inr ⟨rfl, hr⟩⟩).block hr⟩
  | exprStatement h ih => exact fun rest _ => (ih rest).exprStatement h.begins
  | forStatement hk hl hi hc hs ht hr hb ihi ihc iht ihb =>
    intro rest hstop
    rw [forTree_eq]
    refine .chosen (fun _ _ _ h => statement_for h hk) (accepts_for hl hs hr (ihi _)
      (ihc _ _ _ (by decide) (by decide) hs) (iht _ _ _ (by decide) (by decide) hr)
      (ihb rest hstop))
  | @ifThen dangling _ _ _ _ _ _ _ hk hl hc hr ht ihc iht =>
    intro rest hstop
    have hinner : Stops (.statement dangling) rest := by
      cases dangling with
      | true => exact hstop
      | false => exact stops_closed rest
    exact .chosen (fun _ _ _ h => statement_if h hk) (accepts_ifThen hl hr
      (ihc _ (stops_of_is hr (by decide))) (iht rest hinner) (hstop _ List.mem_cons_self))
  | ifThenElse hk hl hc hr ht ho he ihc iht ihe =>
    intro rest hstop
    exact .chosen (fun _ _ _ h => statement_if h hk) (accepts_ifThenElse hl hr ho
      (ihc _ (stops_of_is hr (by decide))) (iht _ (stops_closed _)) (ihe rest hstop))
  | returnStatement hk hv hs ih =>
    exact fun rest _ => .chosen (fun _ _ _ h => statement_return h hk)
      ((ih _ _ _ (by decide) (by decide) hs).returnStatement hs)
  | whileStatement hk hl hc hr hb ihc ihb =>
    intro rest hstop
    exact .chosen (fun _ _ _ h => statement_while h hk) (accepts_while hl hr
      (ihc _ (stops_of_is hr (by decide))) (ihb rest hstop))
  | blockStatement h ih =>
    obtain ⟨left, us, rfl, hl, hblock⟩ := ih
    refine fun rest _ => .chosen (fun _ _ _ h => statement_block h hl) fun s hs => ?_
    obtain ⟨ds, s', hsame, hreach, hn⟩ := hblock rest s hs
    refine ⟨.block ds, s', congrArg Stmt.block hsame, hreach, ?_⟩
    filter_upwards [hn] with n hn
    exact Parser.map_eq_ok.mpr ⟨ds, hn, rfl⟩

/-! ## Programs -/

/-- **A program is parsed without errors, as the tree of its derivation.** -/
theorem parse_of_program {body : List Token} {eof : Token} {program : List Stmt}
    (h : Program body program) (heof : eof.is .endOfText = true) (ref : RefId) :
    (parse (body ++ [eof]) ref).errors = #[] ∧
      SameStmts program (parse (body ++ [eof]) ref).program := by
  have hne : body ++ [eof] ≠ [] := by simp
  have hcomplete := h.complete false [eof] ⟨eof, [], rfl, .inl heof⟩
  generalize htokens : body ++ [eof] = tokens at hne ⊢
  cases tokens with
  | nil => exact absurd rfl hne
  | cons first rest =>
    obtain ⟨parsed, s, hsame, hreach, hparse⟩ :=
      hcomplete ⟨first, first :: rest, ref, #[]⟩ htokens.symm
    obtain ⟨n, hn⟩ := hparse.exists
    rw [parse_of_declarations hn]
    exact ⟨hreach.errors, hsame⟩

/-- The tokens of a text before its end. -/
def bodyTokens (source : String) : List Token :=
  ((lex source).filterMap LexItem.token?).takeWhile (!·.is .endOfText)

theorem tokens_eq_body (source : String) :
    ∃ eof : Token, (lex source).filterMap LexItem.token? = bodyTokens source ++ [eof] ∧
      (∀ t ∈ bodyTokens source, t.Spelled) ∧ eof.is .endOfText = true := by
  obtain ⟨body, eof, htokens, hbody, heof⟩ := tokens_lex source
  have hinside : ∀ t ∈ body, (!t.is .endOfText) = true := fun t ht => by
    rw [(hbody t ht).inside]
    rfl
  have hbodyTokens : bodyTokens source = body := by
    unfold bodyTokens
    rw [htokens, List.takeWhile_append_of_pos hinside]
    simp [heof]
  rw [hbodyTokens]
  exact ⟨eof, htokens, hbody, heof⟩

/-- **The parser accepts exactly its grammar and returns the grammar's tree.** For every text, no
error is noted if and only if the tokens before the end of the text derive; then what is returned
derives, and it is the tree of every derivation, up to the identities of references. -/
theorem parse_exact (source : String) (ref : RefId) :
    let parsed := parse ((lex source).filterMap LexItem.token?) ref
    (parsed.errors = #[] ↔ ∃ program, Program (bodyTokens source) program) ∧
      (parsed.errors = #[] → Program (bodyTokens source) parsed.program) ∧
      ∀ program, Program (bodyTokens source) program →
        Stmt.unlabelledAll parsed.program = Stmt.unlabelledAll program := by
  intro parsed
  obtain ⟨eof, htokens, hbody, heof⟩ := tokens_eq_body source
  have hsound : parsed.errors = #[] → Program (bodyTokens source) parsed.program := by
    have := program_of_parse (fun t ht => (hbody t ht).inside) heof ref
    rwa [← htokens] at this
  have hcomplete {program : List Stmt} (h : Program (bodyTokens source) program) :
      parsed.errors = #[] ∧ SameStmts program parsed.program := by
    have := parse_of_program h heof ref
    rwa [← htokens] at this
  refine ⟨⟨fun h => ⟨parsed.program, hsound h⟩, fun ⟨program, h⟩ => (hcomplete h).1⟩, hsound, ?_⟩
  exact fun program h => (hcomplete h).2

end Scriptlet.Grammar
