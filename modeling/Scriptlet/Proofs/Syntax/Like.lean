import Scriptlet.Proofs.Grammar.Derivation
import Mathlib.Data.List.Forall2

/-!
# Trees that differ in lines and identities

Two texts may have the same tokens on other lines, and two parses of one text give their references
other identities. A `Pairing` says which lines and which identities of two programs answer each other;
`Expr.Like`, `Stmt.Like` say that trees are the same up to it. Nothing else is left open: trees that are
alike have the same shape, operators, literals and names.

Results:
* `Expr.Like.mono`, `Stmt.Like.mono`: more lines and identities may answer each other.
* `Stmt.likeAll_of_unlabelled`: where identities do not matter, any labelling of a tree will do.
* `Stmt.Like.unlabelledAll_eq`: without their identities, trees on the same lines are the same.
-/

namespace Scriptlet

open List (Forall₂)

/-- Which lines and which identities of references of two programs answer each other. -/
structure Pairing where
  line : Nat → Nat → Prop
  ref : RefId → RefId → Prop

namespace Pairing

/-- What answers each other by `P` does so by `Q`. -/
structure Within (P Q : Pairing) : Prop where
  line (l l' : Nat) : P.line l l' → Q.line l l'
  ref (r r' : RefId) : P.ref r r' → Q.ref r r'

/-- Lines answer each other as given, and identities do not matter. -/
def ofLines (line : Nat → Nat → Prop) : Pairing := ⟨line, fun _ _ => True⟩

end Pairing

/-- The same kind of token with the same text, on lines that answer each other. -/
structure Token.Like (line : Nat → Nat → Prop) (t t' : Token) : Prop where
  kind : t.kind = t'.kind
  lexeme : t.lexeme = t'.lexeme
  line : line t.line t'.line

theorem Token.Like.is {line : Nat → Nat → Prop} {t t' : Token} (h : t.Like line t') (s : Symbol) :
    t.is s = t'.is s := by
  unfold Token.is
  rw [h.kind]

theorem Token.Like.eq {t t' : Token} (h : t.Like Eq t') : t = t' := by
  obtain ⟨kind, lexeme, line⟩ := t
  obtain ⟨hkind, hlexeme, hline⟩ := h
  cases hkind
  cases hlexeme
  cases hline
  rfl

theorem Token.like_self (t : Token) : t.Like Eq t := ⟨rfl, rfl, rfl⟩

/-- Lists of what is the same are the same. -/
theorem eq_of_forall₂ {α : Type} {R : α → α → Prop} (hR : ∀ a b, R a b → a = b) {l l' : List α}
    (h : Forall₂ R l l') : l = l' := by
  rw [← List.forall₂_eq_eq_eq]
  exact h.imp hR

/-- **Expressions that are the same up to lines and identities.** -/
inductive Expr.Like (P : Pairing) : Expr → Expr → Prop
  | literal (value : Literal) : Like P (.literal value) (.literal value)
  | unary {op op' e e'} (hop : op.Like P.line op') (he : Like P e e') :
    Like P (.unary op e) (.unary op' e')
  | binary {l l' op op' r r'} (hl : Like P l l') (hop : op.Like P.line op') (hr : Like P r r') :
    Like P (.binary l op r) (.binary l' op' r')
  | logical {l l' op op' r r'} (hl : Like P l l') (hop : op.Like P.line op') (hr : Like P r r') :
    Like P (.logical l op r) (.logical l' op' r')
  | group {e e'} (he : Like P e e') : Like P (.group e) (.group e')
  | var {ref ref' name name'} (href : P.ref ref ref') (hname : name.Like P.line name') :
    Like P (.var ref name) (.var ref' name')
  | assign {ref ref' name name' e e'} (href : P.ref ref ref') (hname : name.Like P.line name')
      (he : Like P e e') : Like P (.assign ref name e) (.assign ref' name' e')
  | call {e e' paren paren' args args'} (he : Like P e e') (hparen : paren.Like P.line paren')
      (hargs : Forall₂ (Like P) args args') : Like P (.call e paren args) (.call e' paren' args')
  | get {e e' name name'} (he : Like P e e') (hname : name.Like P.line name') :
    Like P (.get e name) (.get e' name')
  | set {o o' name name' e e'} (ho : Like P o o') (hname : name.Like P.line name')
      (he : Like P e e') : Like P (.set o name e) (.set o' name' e')
  | this {ref ref' keyword keyword'} (href : P.ref ref ref')
      (hkeyword : keyword.Like P.line keyword') : Like P (.this ref keyword) (.this ref' keyword')
  | super {ref ref' keyword keyword' method method'} (href : P.ref ref ref')
      (hkeyword : keyword.Like P.line keyword') (hmethod : method.Like P.line method') :
    Like P (.super ref keyword method) (.super ref' keyword' method')

structure Superclass.Like (P : Pairing) (c c' : Superclass) : Prop where
  ref : P.ref c.ref c'.ref
  name : c.name.Like P.line c'.name

mutual

/-- **Statements that are the same up to lines and identities.** -/
inductive Stmt.Like (P : Pairing) : Stmt → Stmt → Prop
  | expr {e e'} (he : e.Like P e') : Stmt.Like P (.expr e) (.expr e')
  | declare {name name' init init'} (hname : name.Like P.line name')
      (hinit : Option.Rel (Expr.Like P) init init') :
    Stmt.Like P (.declare name init) (.declare name' init')
  | block {body body'} (hbody : Forall₂ (Stmt.Like P) body body') :
    Stmt.Like P (.block body) (.block body')
  | branch {c c' t t' o o'} (hc : c.Like P c') (ht : Stmt.Like P t t')
      (ho : Option.Rel (Stmt.Like P) o o') : Stmt.Like P (.branch c t o) (.branch c' t' o')
  | loop {c c' b b'} (hc : c.Like P c') (hb : Stmt.Like P b b') :
    Stmt.Like P (.loop c b) (.loop c' b')
  | function {d d'} (hd : FunctionDecl.Like P d d') : Stmt.Like P (.function d) (.function d')
  | ret {keyword keyword' value value'} (hkeyword : keyword.Like P.line keyword')
      (hvalue : Option.Rel (Expr.Like P) value value') :
    Stmt.Like P (.ret keyword value) (.ret keyword' value')
  | classDecl {d d'} (hd : ClassDecl.Like P d d') : Stmt.Like P (.classDecl d) (.classDecl d')

inductive FunctionDecl.Like (P : Pairing) : FunctionDecl → FunctionDecl → Prop
  | mk {name name' params params' body body'} (hname : name.Like P.line name')
      (hparams : Forall₂ (Token.Like P.line) params params')
      (hbody : Forall₂ (Stmt.Like P) body body') :
    FunctionDecl.Like P ⟨name, params, body⟩ ⟨name', params', body'⟩

inductive ClassDecl.Like (P : Pairing) : ClassDecl → ClassDecl → Prop
  | mk {name name' superclass superclass' interface interface' methods methods'}
      (hname : name.Like P.line name')
      (hsuperclass : Option.Rel (Superclass.Like P) superclass superclass')
      (hinterface : Option.Rel (Token.Like P.line) interface interface')
      (hmethods : Forall₂ (FunctionDecl.Like P) methods methods') :
    ClassDecl.Like P ⟨name, superclass, interface, methods⟩
      ⟨name', superclass', interface', methods'⟩

end

namespace FunctionDecl.Like

variable {P : Pairing} {d d' : FunctionDecl}

theorem name (h : d.Like P d') : d.name.Like P.line d'.name := by
  cases h with
  | mk hname => exact hname

theorem params (h : d.Like P d') : Forall₂ (Token.Like P.line) d.params d'.params := by
  cases h with
  | mk _ hparams => exact hparams

theorem body (h : d.Like P d') : Forall₂ (Stmt.Like P) d.body d'.body := by
  cases h with
  | mk _ _ hbody => exact hbody

end FunctionDecl.Like

/-! ## Wider pairings -/

section
variable {P Q : Pairing}

theorem Token.Like.mono (hPQ : P.Within Q) {t t' : Token} (h : t.Like P.line t') :
    t.Like Q.line t' :=
  ⟨h.kind, h.lexeme, hPQ.line _ _ h.line⟩

theorem Superclass.Like.mono (hPQ : P.Within Q) {c c' : Superclass} (h : c.Like P c') :
    c.Like Q c' :=
  ⟨hPQ.ref _ _ h.ref, h.name.mono hPQ⟩

mutual

theorem Expr.Like.mono (hPQ : P.Within Q) : ∀ {e e' : Expr}, e.Like P e' → e.Like Q e'
  | _, _, .literal v => .literal v
  | _, _, .unary hop he => .unary (hop.mono hPQ) (he.mono hPQ)
  | _, _, .binary hl hop hr => .binary (hl.mono hPQ) (hop.mono hPQ) (hr.mono hPQ)
  | _, _, .logical hl hop hr => .logical (hl.mono hPQ) (hop.mono hPQ) (hr.mono hPQ)
  | _, _, .group he => .group (he.mono hPQ)
  | _, _, .var href hname => .var (hPQ.ref _ _ href) (hname.mono hPQ)
  | _, _, .assign href hname he => .assign (hPQ.ref _ _ href) (hname.mono hPQ) (he.mono hPQ)
  | _, _, .call he hparen hargs =>
    .call (he.mono hPQ) (hparen.mono hPQ) (Expr.Like.monoAll hPQ hargs)
  | _, _, .get he hname => .get (he.mono hPQ) (hname.mono hPQ)
  | _, _, .set ho hname he => .set (ho.mono hPQ) (hname.mono hPQ) (he.mono hPQ)
  | _, _, .this href hkeyword => .this (hPQ.ref _ _ href) (hkeyword.mono hPQ)
  | _, _, .super href hkeyword hmethod =>
    .super (hPQ.ref _ _ href) (hkeyword.mono hPQ) (hmethod.mono hPQ)

theorem Expr.Like.monoAll (hPQ : P.Within Q) : ∀ {es es' : List Expr},
    Forall₂ (Expr.Like P) es es' → Forall₂ (Expr.Like Q) es es'
  | _, _, .nil => .nil
  | _, _, .cons h hs => .cons (h.mono hPQ) (Expr.Like.monoAll hPQ hs)

end

/-- What holds of parts holds of a part that may be left out. -/
theorem relOption_imp {α β : Type} {R S : α → β → Prop} (h : ∀ a b, R a b → S a b)
    {o : Option α} {o' : Option β} (ho : Option.Rel R o o') : Option.Rel S o o' := by
  cases ho with
  | none => exact .none
  | some hab => exact .some (h _ _ hab)

mutual

theorem Stmt.Like.mono (hPQ : P.Within Q) : ∀ {st st' : Stmt}, st.Like P st' → st.Like Q st'
  | _, _, .expr he => .expr (he.mono hPQ)
  | _, _, .declare hname hinit =>
    .declare (hname.mono hPQ) (relOption_imp (fun _ _ h => h.mono hPQ) hinit)
  | _, _, .block hbody => .block (Stmt.Like.monoAll hPQ hbody)
  | _, _, .branch hc ht .none => .branch (hc.mono hPQ) (ht.mono hPQ) .none
  | _, _, .branch hc ht (.some ho) => .branch (hc.mono hPQ) (ht.mono hPQ) (.some (ho.mono hPQ))
  | _, _, .loop hc hb => .loop (hc.mono hPQ) (hb.mono hPQ)
  | _, _, .function hd => .function (hd.mono hPQ)
  | _, _, .ret hkeyword hvalue =>
    .ret (hkeyword.mono hPQ) (relOption_imp (fun _ _ h => h.mono hPQ) hvalue)
  | _, _, .classDecl hd => .classDecl (hd.mono hPQ)
termination_by structural st => st

theorem FunctionDecl.Like.mono (hPQ : P.Within Q) : ∀ {d d' : FunctionDecl},
    d.Like P d' → d.Like Q d'
  | _, _, .mk hname hparams hbody =>
    .mk (hname.mono hPQ) (hparams.imp fun _ _ h => h.mono hPQ) (Stmt.Like.monoAll hPQ hbody)
termination_by structural d => d

theorem ClassDecl.Like.mono (hPQ : P.Within Q) : ∀ {d d' : ClassDecl}, d.Like P d' → d.Like Q d'
  | _, _, .mk hname hsuperclass hinterface hmethods =>
    .mk (hname.mono hPQ) (relOption_imp (fun _ _ h => h.mono hPQ) hsuperclass)
      (relOption_imp (fun _ _ h => h.mono hPQ) hinterface) (FunctionDecl.Like.monoAll hPQ hmethods)
termination_by structural d => d

theorem Stmt.Like.monoAll (hPQ : P.Within Q) : ∀ {ss ss' : List Stmt},
    Forall₂ (Stmt.Like P) ss ss' → Forall₂ (Stmt.Like Q) ss ss'
  | _, _, .nil => .nil
  | _, _, .cons h hs => .cons (h.mono hPQ) (Stmt.Like.monoAll hPQ hs)
termination_by structural ss => ss

theorem FunctionDecl.Like.monoAll (hPQ : P.Within Q) : ∀ {ds ds' : List FunctionDecl},
    Forall₂ (FunctionDecl.Like P) ds ds' → Forall₂ (FunctionDecl.Like Q) ds ds'
  | _, _, .nil => .nil
  | _, _, .cons h hs => .cons (h.mono hPQ) (FunctionDecl.Like.monoAll hPQ hs)
termination_by structural ds => ds

end

end

/-! ## Trees without identities -/

section
variable {P : Pairing} {line : Nat → Nat → Prop}

mutual

/-- A tree is like one whose identities are taken away, as far as lines go. -/
theorem Expr.Like.unlabelled : ∀ {e e' : Expr},
    e.Like P e' → e.Like (.ofLines P.line) e'.unlabelled
  | _, _, .literal v => .literal v
  | _, _, .unary hop he => .unary hop he.unlabelled
  | _, _, .binary hl hop hr => .binary hl.unlabelled hop hr.unlabelled
  | _, _, .logical hl hop hr => .logical hl.unlabelled hop hr.unlabelled
  | _, _, .group he => .group he.unlabelled
  | _, _, .var _ hname => .var trivial hname
  | _, _, .assign _ hname he => .assign trivial hname he.unlabelled
  | _, _, .call he hparen hargs => .call he.unlabelled hparen (Expr.Like.unlabelledAll hargs)
  | _, _, .get he hname => .get he.unlabelled hname
  | _, _, .set ho hname he => .set ho.unlabelled hname he.unlabelled
  | _, _, .this _ hkeyword => .this trivial hkeyword
  | _, _, .super _ hkeyword hmethod => .super trivial hkeyword hmethod

theorem Expr.Like.unlabelledAll : ∀ {es es' : List Expr}, Forall₂ (Expr.Like P) es es' →
    Forall₂ (Expr.Like (.ofLines P.line)) es (Expr.unlabelledAll es')
  | _, _, .nil => .nil
  | _, _, .cons h hs => .cons h.unlabelled (Expr.Like.unlabelledAll hs)

end

theorem Superclass.like_unlabelled {o o' : Option Superclass}
    (h : Option.Rel (Superclass.Like P) o o') :
    Option.Rel (Superclass.Like (.ofLines P.line)) o (o'.map fun parent => ⟨0, parent.name⟩) := by
  cases h with
  | none => exact .none
  | some h => exact .some ⟨trivial, h.name⟩

mutual

theorem Stmt.Like.unlabelled : ∀ {st st' : Stmt},
    st.Like P st' → st.Like (.ofLines P.line) st'.unlabelled
  | _, _, .expr he => .expr he.unlabelled
  | _, _, .declare hname .none => .declare hname .none
  | _, _, .declare hname (.some hinit) => .declare hname (.some hinit.unlabelled)
  | _, _, .block hbody => .block (Stmt.Like.unlabelledAll hbody)
  | _, _, .branch hc ht .none => .branch hc.unlabelled ht.unlabelled .none
  | _, _, .branch hc ht (.some ho) => .branch hc.unlabelled ht.unlabelled (.some ho.unlabelled)
  | _, _, .loop hc hb => .loop hc.unlabelled hb.unlabelled
  | _, _, .function hd => .function hd.unlabelled
  | _, _, .ret hkeyword .none => .ret hkeyword .none
  | _, _, .ret hkeyword (.some hvalue) => .ret hkeyword (.some hvalue.unlabelled)
  | _, _, .classDecl hd => .classDecl hd.unlabelled
termination_by structural st => st

theorem FunctionDecl.Like.unlabelled : ∀ {d d' : FunctionDecl},
    d.Like P d' → d.Like (.ofLines P.line) d'.unlabelled
  | _, _, .mk hname hparams hbody => .mk hname hparams (Stmt.Like.unlabelledAll hbody)
termination_by structural d => d

theorem ClassDecl.Like.unlabelled : ∀ {d d' : ClassDecl},
    d.Like P d' → d.Like (.ofLines P.line) d'.unlabelled
  | _, _, .mk hname hsuperclass hinterface hmethods =>
    .mk hname (Superclass.like_unlabelled hsuperclass) hinterface
      (FunctionDecl.Like.unlabelledAll hmethods)
termination_by structural d => d

theorem Stmt.Like.unlabelledAll : ∀ {ss ss' : List Stmt}, Forall₂ (Stmt.Like P) ss ss' →
    Forall₂ (Stmt.Like (.ofLines P.line)) ss (Stmt.unlabelledAll ss')
  | _, _, .nil => .nil
  | _, _, .cons h hs => .cons h.unlabelled (Stmt.Like.unlabelledAll hs)
termination_by structural ss => ss

theorem FunctionDecl.Like.unlabelledAll : ∀ {ds ds' : List FunctionDecl},
    Forall₂ (FunctionDecl.Like P) ds ds' →
    Forall₂ (FunctionDecl.Like (.ofLines P.line)) ds (FunctionDecl.unlabelledAll ds')
  | _, _, .nil => .nil
  | _, _, .cons h hs => .cons h.unlabelled (FunctionDecl.Like.unlabelledAll hs)
termination_by structural ds => ds

end

mutual

/-- Any identities may be put back. -/
theorem Expr.like_of_unlabelled : ∀ {e : Expr} (e' : Expr),
    e.Like (.ofLines line) e'.unlabelled → e.Like (.ofLines line) e'
  | _, .literal _, .literal v => .literal v
  | _, .unary _ e', .unary hop he => .unary hop (Expr.like_of_unlabelled e' he)
  | _, .binary l' _ r', .binary hl hop hr =>
    .binary (Expr.like_of_unlabelled l' hl) hop (Expr.like_of_unlabelled r' hr)
  | _, .logical l' _ r', .logical hl hop hr =>
    .logical (Expr.like_of_unlabelled l' hl) hop (Expr.like_of_unlabelled r' hr)
  | _, .group e', .group he => .group (Expr.like_of_unlabelled e' he)
  | _, .var _ _, .var _ hname => .var trivial hname
  | _, .assign _ _ e', .assign _ hname he => .assign trivial hname (Expr.like_of_unlabelled e' he)
  | _, .call e' _ args', .call he hparen hargs =>
    .call (Expr.like_of_unlabelled e' he) hparen (Expr.likeAll_of_unlabelled args' hargs)
  | _, .get e' _, .get he hname => .get (Expr.like_of_unlabelled e' he) hname
  | _, .set o' _ e', .set ho hname he =>
    .set (Expr.like_of_unlabelled o' ho) hname (Expr.like_of_unlabelled e' he)
  | _, .this _ _, .this _ hkeyword => .this trivial hkeyword
  | _, .super _ _ _, .super _ hkeyword hmethod => .super trivial hkeyword hmethod
termination_by structural _ e' => e'

theorem Expr.likeAll_of_unlabelled : ∀ {es : List Expr} (es' : List Expr),
    Forall₂ (Expr.Like (.ofLines line)) es (Expr.unlabelledAll es') →
    Forall₂ (Expr.Like (.ofLines line)) es es'
  | _, [], .nil => .nil
  | _, e' :: es', .cons h hs =>
    .cons (Expr.like_of_unlabelled e' h) (Expr.likeAll_of_unlabelled es' hs)
termination_by structural _ es' => es'

end

theorem Superclass.like_of_unlabelled {o o' : Option Superclass}
    (h : Option.Rel (Superclass.Like (.ofLines line)) o (o'.map fun parent => ⟨0, parent.name⟩)) :
    Option.Rel (Superclass.Like (.ofLines line)) o o' := by
  cases o' with
  | none =>
    cases h
    exact .none
  | some parent =>
    cases h with
    | some h => exact .some ⟨trivial, h.name⟩

mutual

theorem Stmt.like_of_unlabelled : ∀ {st : Stmt} (st' : Stmt),
    st.Like (.ofLines line) st'.unlabelled → st.Like (.ofLines line) st'
  | _, .expr e', .expr he => .expr (Expr.like_of_unlabelled e' he)
  | _, .declare _ none, .declare hname .none => .declare hname .none
  | _, .declare _ (some e'), .declare hname (.some hinit) =>
    .declare hname (.some (Expr.like_of_unlabelled e' hinit))
  | _, .block body', .block hbody => .block (Stmt.likeAll_of_unlabelled body' hbody)
  | _, .branch c' t' none, .branch hc ht .none =>
    .branch (Expr.like_of_unlabelled c' hc) (Stmt.like_of_unlabelled t' ht) .none
  | _, .branch c' t' (some o'), .branch hc ht (.some ho) =>
    .branch (Expr.like_of_unlabelled c' hc) (Stmt.like_of_unlabelled t' ht)
      (.some (Stmt.like_of_unlabelled o' ho))
  | _, .loop c' b', .loop hc hb =>
    .loop (Expr.like_of_unlabelled c' hc) (Stmt.like_of_unlabelled b' hb)
  | _, .function d', .function hd => .function (FunctionDecl.like_of_unlabelled d' hd)
  | _, .ret _ none, .ret hkeyword .none => .ret hkeyword .none
  | _, .ret _ (some e'), .ret hkeyword (.some hvalue) =>
    .ret hkeyword (.some (Expr.like_of_unlabelled e' hvalue))
  | _, .classDecl d', .classDecl hd => .classDecl (ClassDecl.like_of_unlabelled d' hd)
termination_by structural _ st' => st'

theorem FunctionDecl.like_of_unlabelled : ∀ {d : FunctionDecl} (d' : FunctionDecl),
    d.Like (.ofLines line) d'.unlabelled → d.Like (.ofLines line) d'
  | _, ⟨_, _, body'⟩, .mk hname hparams hbody =>
    .mk hname hparams (Stmt.likeAll_of_unlabelled body' hbody)
termination_by structural _ d' => d'

theorem ClassDecl.like_of_unlabelled : ∀ {d : ClassDecl} (d' : ClassDecl),
    d.Like (.ofLines line) d'.unlabelled → d.Like (.ofLines line) d'
  | _, ⟨_, _, _, methods'⟩, .mk hname hsuperclass hinterface hmethods =>
    .mk hname (Superclass.like_of_unlabelled hsuperclass) hinterface
      (FunctionDecl.likeAll_of_unlabelled methods' hmethods)
termination_by structural _ d' => d'

theorem Stmt.likeAll_of_unlabelled : ∀ {ss : List Stmt} (ss' : List Stmt),
    Forall₂ (Stmt.Like (.ofLines line)) ss (Stmt.unlabelledAll ss') →
    Forall₂ (Stmt.Like (.ofLines line)) ss ss'
  | _, [], .nil => .nil
  | _, st' :: ss', .cons h hs =>
    .cons (Stmt.like_of_unlabelled st' h) (Stmt.likeAll_of_unlabelled ss' hs)
termination_by structural _ ss' => ss'

theorem FunctionDecl.likeAll_of_unlabelled : ∀ {ds : List FunctionDecl} (ds' : List FunctionDecl),
    Forall₂ (FunctionDecl.Like (.ofLines line)) ds (FunctionDecl.unlabelledAll ds') →
    Forall₂ (FunctionDecl.Like (.ofLines line)) ds ds'
  | _, [], .nil => .nil
  | _, d' :: ds', .cons h hs =>
    .cons (FunctionDecl.like_of_unlabelled d' h) (FunctionDecl.likeAll_of_unlabelled ds' hs)
termination_by structural _ ds' => ds'

end

end

/-! ## Trees on the same lines -/

mutual

/-- Without their identities, trees that are alike line by line are the same. -/
theorem Expr.Like.unlabelled_eq : ∀ {e e' : Expr},
    e.Like (.ofLines Eq) e' → e.unlabelled = e'.unlabelled
  | _, _, .literal _ => rfl
  | _, _, .unary hop he => congrArg₂ Expr.unary hop.eq he.unlabelled_eq
  | _, _, .binary hl hop hr => by
    rw [Expr.unlabelled, Expr.unlabelled, hl.unlabelled_eq, hop.eq, hr.unlabelled_eq]
  | _, _, .logical hl hop hr => by
    rw [Expr.unlabelled, Expr.unlabelled, hl.unlabelled_eq, hop.eq, hr.unlabelled_eq]
  | _, _, .group he => congrArg Expr.group he.unlabelled_eq
  | _, _, .var _ hname => congrArg (Expr.var 0) hname.eq
  | _, _, .assign _ hname he => congrArg₂ (Expr.assign 0) hname.eq he.unlabelled_eq
  | _, _, .call he hparen hargs => by
    rw [Expr.unlabelled, Expr.unlabelled, he.unlabelled_eq, hparen.eq,
      Expr.Like.unlabelledAll_eq hargs]
  | _, _, .get he hname => congrArg₂ Expr.get he.unlabelled_eq hname.eq
  | _, _, .set ho hname he => by
    rw [Expr.unlabelled, Expr.unlabelled, ho.unlabelled_eq, hname.eq, he.unlabelled_eq]
  | _, _, .this _ hkeyword => congrArg (Expr.this 0) hkeyword.eq
  | _, _, .super _ hkeyword hmethod => congrArg₂ (Expr.super 0) hkeyword.eq hmethod.eq

theorem Expr.Like.unlabelledAll_eq : ∀ {es es' : List Expr},
    Forall₂ (Expr.Like (.ofLines Eq)) es es' → Expr.unlabelledAll es = Expr.unlabelledAll es'
  | _, _, .nil => rfl
  | _, _, .cons h hs => congrArg₂ List.cons h.unlabelled_eq (Expr.Like.unlabelledAll_eq hs)

end

theorem Superclass.Like.unlabelled_eq {o o' : Option Superclass}
    (h : Option.Rel (Superclass.Like (.ofLines Eq)) o o') :
    (o.map fun parent => Superclass.mk 0 parent.name) =
      o'.map fun parent => Superclass.mk 0 parent.name := by
  cases h with
  | none => rfl
  | some h => exact congrArg (fun name => some (Superclass.mk 0 name)) h.name.eq

theorem eq_of_optionRel {o o' : Option Token} (h : Option.Rel (Token.Like Eq) o o') : o = o' := by
  cases h with
  | none => rfl
  | some h => exact congrArg some h.eq

mutual

theorem Stmt.Like.unlabelled_eq : ∀ {st st' : Stmt},
    st.Like (.ofLines Eq) st' → st.unlabelled = st'.unlabelled
  | _, _, .expr he => congrArg Stmt.expr he.unlabelled_eq
  | _, _, .declare hname .none => congrArg (Stmt.declare · none) hname.eq
  | _, _, .declare hname (.some hinit) =>
    congrArg₂ (fun name init => Stmt.declare name (some init)) hname.eq hinit.unlabelled_eq
  | _, _, .block hbody => congrArg Stmt.block (Stmt.Like.unlabelledAll_eq hbody)
  | _, _, .branch hc ht .none =>
    congrArg₂ (Stmt.branch · · none) hc.unlabelled_eq ht.unlabelled_eq
  | _, _, .branch hc ht (.some ho) => by
    rw [Stmt.unlabelled, Stmt.unlabelled, hc.unlabelled_eq, ht.unlabelled_eq, ho.unlabelled_eq]
  | _, _, .loop hc hb => congrArg₂ Stmt.loop hc.unlabelled_eq hb.unlabelled_eq
  | _, _, .function hd => congrArg Stmt.function hd.unlabelled_eq
  | _, _, .ret hkeyword .none => congrArg (Stmt.ret · none) hkeyword.eq
  | _, _, .ret hkeyword (.some hvalue) =>
    congrArg₂ (fun keyword value => Stmt.ret keyword (some value)) hkeyword.eq
      hvalue.unlabelled_eq
  | _, _, .classDecl hd => congrArg Stmt.classDecl hd.unlabelled_eq
termination_by structural st => st

theorem FunctionDecl.Like.unlabelled_eq : ∀ {d d' : FunctionDecl},
    d.Like (.ofLines Eq) d' → d.unlabelled = d'.unlabelled
  | _, _, .mk hname hparams hbody => by
    rw [FunctionDecl.unlabelled, FunctionDecl.unlabelled, hname.eq,
      eq_of_forall₂ (fun _ _ h => h.eq) hparams, Stmt.Like.unlabelledAll_eq hbody]
termination_by structural d => d

theorem ClassDecl.Like.unlabelled_eq : ∀ {d d' : ClassDecl},
    d.Like (.ofLines Eq) d' → d.unlabelled = d'.unlabelled
  | _, _, .mk hname hsuperclass hinterface hmethods => by
    rw [ClassDecl.unlabelled, ClassDecl.unlabelled, hname.eq,
      Superclass.Like.unlabelled_eq hsuperclass, eq_of_optionRel hinterface,
      FunctionDecl.Like.unlabelledAll_eq hmethods]
termination_by structural d => d

theorem Stmt.Like.unlabelledAll_eq : ∀ {ss ss' : List Stmt},
    Forall₂ (Stmt.Like (.ofLines Eq)) ss ss' → Stmt.unlabelledAll ss = Stmt.unlabelledAll ss'
  | _, _, .nil => rfl
  | _, _, .cons h hs => congrArg₂ List.cons h.unlabelled_eq (Stmt.Like.unlabelledAll_eq hs)
termination_by structural ss => ss

theorem FunctionDecl.Like.unlabelledAll_eq : ∀ {ds ds' : List FunctionDecl},
    Forall₂ (FunctionDecl.Like (.ofLines Eq)) ds ds' →
    FunctionDecl.unlabelledAll ds = FunctionDecl.unlabelledAll ds'
  | _, _, .nil => rfl
  | _, _, .cons h hs => congrArg₂ List.cons h.unlabelled_eq (FunctionDecl.Like.unlabelledAll_eq hs)
termination_by structural ds => ds

end

theorem Stmt.unlabelledAll_eq_map (ss : List Stmt) :
    Stmt.unlabelledAll ss = ss.map Stmt.unlabelled := by
  induction ss with
  | nil => rfl
  | cons st ss ih => exact congrArg (st.unlabelled :: ·) ih

end Scriptlet
