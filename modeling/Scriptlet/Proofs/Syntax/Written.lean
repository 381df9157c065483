import Scriptlet.Proofs.Lexer.Spaced
import Scriptlet.Proofs.Parser.Cursor
import Scriptlet.Proofs.Syntax.Like
import Scriptlet.Proofs.Syntax.Proper
import Scriptlet.Proofs.Syntax.Sexp

/-!
# Trees of written tokens

The tokens of a text are written as the lexer reads them: one text belongs to one kind of token, and
but for names and literals one kind has one text. A tree that is parsed from the tokens of a text,
with or without syntax errors, keeps tokens of this sort only, and in every place one of the symbols
that can stand there (`Expr.Printable`, `Stmt.Printable`).

Results:
* `Token.WrittenAs.like`: tokens with one text are of one kind.
* `Token.WrittenAs.lexeme_eq`: a symbol that is no name has one text.
* `parse_printable`: **what is parsed from plain tokens is printable.**
-/

namespace Scriptlet

open Lexer (Lexeme)

/-! ## Written tokens -/

/-- The token is the symbol `k` and has a text that is read as `k`. -/
structure Token.WrittenAs (t : Token) (k : Symbol) : Prop where
  kind : t.kind = .symbol k
  lexeme : Lexeme (.token (.symbol k)) t.lexeme.toList

/-- What a symbol is written as: an operator of the table, or a word. -/
theorem symbol_cases {k : Symbol} {text : List Char} (h : Lexeme (.token (.symbol k)) text) :
    (text, k) ∈ Lexer.operators ∨ Symbol.ofWord (String.ofList text) = k ∧
      ∃ c rest, text = c :: rest ∧ Lexer.isWordStart c = true ∧
        ∀ d ∈ rest, Lexer.isWordChar d = true := by
  cases h with
  | operator h => exact .inl h
  | @word c rest hc h => exact .inr ⟨rfl, c, rest, rfl, hc, h⟩

theorem isWord_ofWord (word : String) : (Symbol.ofWord word).isWord = true := by
  rcases Symbol.ofWord_cases word with hi | hm
  · rw [hi]
    rfl
  · rw [Symbol.isWord, List.any_eq_true.mpr ⟨_, hm, decide_eq_true rfl⟩, Bool.or_true]

theorem isWord_operator : ∀ p ∈ Lexer.operators, p.2.isWord = false := by decide

theorem operators_unique : ∀ p ∈ Lexer.operators, ∀ q ∈ Lexer.operators, p.2 = q.2 → p.1 = q.1 := by
  decide

theorem keywords_unique : ∀ p ∈ Symbol.keywords, ∀ q ∈ Symbol.keywords, p.2 = q.2 → p.1 = q.1 := by
  decide

/-- No operator but a parenthesis has a delimiter in it. -/
theorem plain_operator : ∀ p ∈ Lexer.operators, p.2 ≠ .leftParen → p.2 ≠ .rightParen →
    p.1 ≠ [] ∧ p.1.all (!isDelimiter ·) = true := by decide

theorem plain_of_wordChar {c : Char} (h : Lexer.isWordChar c = true) : (!isDelimiter c) = true := by
  rw [Bool.not_eq_true', Bool.eq_false_iff]
  intro hc
  rcases isDelimiter_cases hc with rfl | rfl | rfl | rfl <;> exact absurd h (by decide)

namespace Token.WrittenAs

variable {t t' : Token} {k k' : Symbol}

/-- Tokens with one text are of one kind. -/
theorem like (h : t.WrittenAs k) (h' : t'.WrittenAs k') (heq : t.lexeme = t'.lexeme) :
    t.Like (fun _ _ => True) t' := by
  have hpieces := h.lexeme.pieces_eq
  rw [heq, h'.lexeme.pieces_eq] at hpieces
  have hk : k' = k := by
    simp only [List.cons.injEq, Lexer.Piece.mk.injEq, Lexer.PieceKind.token.injEq,
      TokenKind.symbol.injEq, and_true] at hpieces
    exact hpieces
  exact ⟨by rw [h.kind, h'.kind, hk], heq, trivial⟩

theorem operator (h : t.WrittenAs k) (hk : k.isWord = false) :
    (t.lexeme.toList, k) ∈ Lexer.operators := by
  rcases symbol_cases h.lexeme with hop | ⟨hw, -⟩
  · exact hop
  · rw [← hw, isWord_ofWord] at hk
    cases hk

theorem word (h : t.WrittenAs k) (hk : k.isWord = true) : Symbol.ofWord t.lexeme = k := by
  rcases symbol_cases h.lexeme with hop | ⟨hw, -⟩
  · rw [isWord_operator _ hop] at hk
    cases hk
  · rwa [String.ofList_toList] at hw

/-- A symbol that is no name has one text. -/
theorem lexeme_eq (h : t.WrittenAs k) (h' : t'.WrittenAs k) (hk : k ≠ .identifier) :
    t.lexeme = t'.lexeme := by
  cases hw : k.isWord with
  | false =>
    exact String.toList_inj.mp
      (operators_unique _ (h.operator hw) _ (h'.operator hw) rfl)
  | true =>
    have keyword {u : Token} (hu : u.WrittenAs k) : (u.lexeme, k) ∈ Symbol.keywords := by
      rcases Symbol.ofWord_cases u.lexeme with hi | hm
      · exact absurd ((hu.word hw).symm.trans hi) hk
      · rwa [hu.word hw] at hm
    exact keywords_unique _ (keyword h) _ (keyword h') rfl

/-- Kept keywords and parentheses are alike. -/
theorem like_of_kept (h : t.WrittenAs k) (h' : t'.WrittenAs k) (hk : k ≠ .identifier) :
    t.Like (fun _ _ => True) t' := h.like h' (h.lexeme_eq h' hk)

theorem isWord (h : t.WrittenAs k) (hl : k ≠ .leftParen) (hr : k ≠ .rightParen) :
    IsWord t.lexeme := by
  rcases symbol_cases h.lexeme with hop | ⟨-, c, rest, htext, hc, hrest⟩
  · have hplain := plain_operator _ hop hl hr
    exact ⟨hplain.1, List.all_eq_true.mp hplain.2⟩
  · refine ⟨htext ▸ List.cons_ne_nil _ _, ?_⟩
    rw [htext]
    refine List.forall_mem_cons.mpr ⟨plain_of_wordChar ?_, fun d hd => plain_of_wordChar (hrest d hd)⟩
    rw [Lexer.isWordChar, hc, Bool.true_or]

end Token.WrittenAs

/-- The token can be printed: it is written as the lexer reads it, is no string and no number that is
not finite. -/
structure Token.Plain (t : Token) : Prop where
  written (h : t.is .endOfText = false) : Lexeme (.token t.kind) t.lexeme.toList
  unquoted (value : String) : t.kind ≠ .string value
  finite (x : Number) (h : t.kind = .number x) : x.isFinite = true

theorem Token.Plain.writtenAs {t : Token} {k : Symbol} (h : t.Plain) (hk : t.is k = true)
    (hne : k ≠ .endOfText) : t.WrittenAs k := by
  have hkind : t.kind = .symbol k := of_decide_eq_true hk
  exact ⟨hkind, hkind ▸ h.written (Token.is_ne hk hne)⟩

/-- **The text of a token is a lexeme of its kind**, the end of the text apart. -/
theorem lexeme_of_token {source : String} {t : Token}
    (ht : t ∈ (lex source).filterMap LexItem.token?) (h : t.is .endOfText = false) :
    Lexeme (.token t.kind) t.lexeme.toList := by
  have hmem := List.mem_map_of_mem (f := Token.content) ht
  rw [lex, Lexer.contents_itemsFrom, List.mem_append] at hmem
  rcases hmem with hmem | hmem
  · obtain ⟨p, hp, hcontent⟩ := List.mem_filterMap.mp hmem
    unfold Lexer.Piece.content? at hcontent
    split at hcontent
    · next kind hkind =>
      obtain ⟨hk, hl⟩ := Prod.mk.inj (Option.some.inj hcontent)
      rw [← hk, ← hl, String.toList_ofList]
      exact Lexer.lexeme_of_mem hp hkind
    · cases hcontent
  · obtain ⟨hk, -⟩ := Prod.mk.inj (List.mem_singleton.mp hmem)
    rw [Token.is, hk] at h
    cases h

/-! ## Printable trees -/

def Literal.Printable : Literal → Prop
  | number value => value.isFinite = true
  | string _ => False
  | bool _ => True
  | null => True

def unaryOperators : List Symbol := [.bang, .minus]

def logicalOperators : List Symbol := [.pipePipe, .ampersandAmpersand]

/-- The two loosest levels join operands to logical expressions, the others to binary ones. -/
theorem Level.join_cases (l : Level) :
    (∀ k ∈ l.operators, k ∈ logicalOperators) ∧ l.join = Expr.logical ∨
      (∀ k ∈ l.operators, k ∈ binaryOperators) ∧ l.join = Expr.binary := by
  cases l with
  | or => exact .inl ⟨by decide, rfl⟩
  | and => exact .inl ⟨by decide, rfl⟩
  | _ => exact .inr ⟨by decide, rfl⟩

/-- Every token is written as one of the symbols that can stand in its place, and literals are plain. -/
inductive Expr.Printable : Expr → Prop
  | literal {value : Literal} (h : value.Printable) : Printable (.literal value)
  | unary {k : Symbol} {op : Token} {e : Expr} (hk : k ∈ unaryOperators) (hop : op.WrittenAs k)
    (he : Printable e) : Printable (.unary op e)
  | binary {k : Symbol} {left right : Expr} {op : Token} (hl : Printable left)
    (hk : k ∈ binaryOperators) (hop : op.WrittenAs k) (hr : Printable right) :
    Printable (.binary left op right)
  | logical {k : Symbol} {left right : Expr} {op : Token} (hl : Printable left)
    (hk : k ∈ logicalOperators) (hop : op.WrittenAs k) (hr : Printable right) :
    Printable (.logical left op right)
  | group {e : Expr} (he : Printable e) : Printable (.group e)
  | var {ref : RefId} {name : Token} (hn : name.WrittenAs .identifier) : Printable (.var ref name)
  | assign {ref : RefId} {name : Token} {e : Expr} (hn : name.WrittenAs .identifier)
    (he : Printable e) : Printable (.assign ref name e)
  | call {callee : Expr} {paren : Token} {args : List Expr} (he : Printable callee)
    (hp : paren.WrittenAs .rightParen) (hargs : ∀ a ∈ args, Printable a) :
    Printable (.call callee paren args)
  | get {object : Expr} {name : Token} (ho : Printable object) (hn : name.WrittenAs .identifier) :
    Printable (.get object name)
  | set {object e : Expr} {name : Token} (ho : Printable object) (hn : name.WrittenAs .identifier)
    (he : Printable e) : Printable (.set object name e)
  | this {ref : RefId} {keyword : Token} (hk : keyword.WrittenAs .thisKw) :
    Printable (.this ref keyword)
  | super {ref : RefId} {keyword method : Token} (hk : keyword.WrittenAs .superKw)
    (hm : method.WrittenAs .identifier) : Printable (.super ref keyword method)

mutual

/-- Every token is written as the symbol that stands in its place, and all expressions are printable. -/
inductive Stmt.Printable : Stmt → Prop
  | expr {e : Expr} (he : e.Printable) : Stmt.Printable (.expr e)
  | declare {name : Token} {init : Option Expr} (hn : name.WrittenAs .identifier)
    (hinit : ∀ e ∈ init, e.Printable) : Stmt.Printable (.declare name init)
  | block {body : List Stmt} (h : ∀ st ∈ body, Stmt.Printable st) : Stmt.Printable (.block body)
  | branch {cond : Expr} {thenDo : Stmt} {elseDo : Option Stmt} (hc : cond.Printable)
    (ht : Stmt.Printable thenDo) (he : ∀ st ∈ elseDo, Stmt.Printable st) :
    Stmt.Printable (.branch cond thenDo elseDo)
  | loop {cond : Expr} {body : Stmt} (hc : cond.Printable) (hb : Stmt.Printable body) :
    Stmt.Printable (.loop cond body)
  | function {decl : FunctionDecl} (h : FunctionDecl.Printable decl) : Stmt.Printable (.function decl)
  | ret {keyword : Token} {value : Option Expr} (hk : keyword.WrittenAs .returnKw)
    (hv : ∀ e ∈ value, e.Printable) : Stmt.Printable (.ret keyword value)
  | classDecl {name : Token} {superclass : Option Superclass} {interface : Option Token}
    {methods : List FunctionDecl} (hn : name.WrittenAs .identifier)
    (hs : ∀ parent ∈ superclass, parent.name.WrittenAs .identifier)
    (hi : ∀ i ∈ interface, i.WrittenAs .identifier)
    (hm : ∀ d ∈ methods, FunctionDecl.Printable d) :
    Stmt.Printable (.classDecl ⟨name, superclass, interface, methods⟩)

inductive FunctionDecl.Printable : FunctionDecl → Prop
  | mk {name : Token} {params : List Token} {body : List Stmt} (hn : name.WrittenAs .identifier)
    (hp : ∀ p ∈ params, p.WrittenAs .identifier) (hb : ∀ st ∈ body, Stmt.Printable st) :
    FunctionDecl.Printable ⟨name, params, body⟩

end

/-! ## What is parsed is printable -/

section
variable {T : Token → Prop} (hT : ∀ t, T t → t.Plain)

include hT

theorem builds_printable_expressions : Parser.BuildsExpressions T Expr.Printable where
  literal {value} h := by
    cases value with
    | number x =>
      obtain ⟨t, ht, hkind⟩ := h
      exact .literal ((hT t ht).finite x hkind)
    | string value =>
      obtain ⟨t, ht, hkind⟩ := h
      exact absurd hkind ((hT t ht).unquoted value)
    | bool => exact .literal trivial
    | null => exact .literal trivial
  unary ht hop he := by
    rcases Bool.or_eq_true_iff.mp hop with hop | hop
    · exact .unary (by decide) ((hT _ ht).writtenAs hop (by decide)) he
    · exact .unary (by decide) ((hT _ ht).writtenAs hop (by decide)) he
  join {l _ _ _} hl ht hany hr := by
    obtain ⟨k, hk, hop⟩ := List.any_eq_true.mp hany
    have hall : ∀ k ∈ l.operators, k ≠ .endOfText := by cases l <;> decide
    have hwritten := (hT _ ht).writtenAs hop (hall k hk)
    rcases l.join_cases with ⟨hsub, hjoin⟩ | ⟨hsub, hjoin⟩
    · rw [hjoin]
      exact .logical hl (hsub k hk) hwritten hr
    · rw [hjoin]
      exact .binary hl (hsub k hk) hwritten hr
  group he := .group he
  var _ _ ht hn := .var ((hT _ ht).writtenAs hn (by decide))
  assign _ _ _ _ hv he := by
    cases hv with
    | var hn => exact .assign hn he
  call he ht hp hargs := .call he ((hT _ ht).writtenAs hp (by decide)) hargs
  get he ht hn := .get he ((hT _ ht).writtenAs hn (by decide))
  set hg he := by
    cases hg with
    | get ho hn => exact .set ho hn he
  this _ _ ht hk := .this ((hT _ ht).writtenAs hk (by decide))
  super _ _ _ ht hk hm hn :=
    .super ((hT _ ht).writtenAs hk (by decide)) ((hT _ hm).writtenAs hn (by decide))

theorem builds_printable_statements :
    Parser.BuildsStatements T Expr.Printable Stmt.Printable FunctionDecl.Printable where
  expr he := .expr he
  declare ht hn hinit := .declare ((hT _ ht).writtenAs hn (by decide)) hinit
  block h := .block h
  branch hc ht he := .branch hc ht he
  loop hc hb := .loop hc hb
  function h := .function h
  ret ht hk hv := .ret ((hT _ ht).writtenAs hk (by decide)) hv
  classDecl ht hn hs hi hm :=
    .classDecl ((hT _ ht).writtenAs hn (by decide))
      (fun parent h => (hT _ (hs parent h).1).writtenAs (hs parent h).2 (by decide))
      (fun i h => (hT _ (hi i h).1).writtenAs (hi i h).2 (by decide)) hm
  decl ht hn hp hb :=
    .mk ((hT _ ht).writtenAs hn (by decide))
      (fun p h => (hT _ (hp p h).1).writtenAs (hp p h).2 (by decide)) hb

end

/-- **What is parsed from plain tokens is printable**, with or without syntax errors. -/
theorem parse_printable {tokens : List Token} (h : ∀ t ∈ tokens, t.Plain) (ref : RefId) :
    ∀ st ∈ (parse tokens ref).program, st.Printable :=
  (Parser.parse_builds tokens ref (builds_printable_expressions h)
    (builds_printable_statements h)).1

end Scriptlet
