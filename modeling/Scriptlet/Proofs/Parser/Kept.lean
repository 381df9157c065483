import Scriptlet.Proofs.Parser.Action
import Scriptlet.Proofs.Syntax.Over

/-!
# Invariants of the parser

An invariant of parser states that is kept when a token is read, an error is noted, an identity is
taken and tokens are skipped after an error (`Kept`) is kept by every rule. The tokens that are read,
and those that errors are noticed at, satisfy a predicate `T` then. What the rules yield satisfies every
property of trees that carries over from the parts of a tree to the tree, where its tokens satisfy `T`
and are of their kinds (`BuildsExpressions`, `BuildsStatements`): one is that all tokens of the tree
satisfy `T`. The end of the text is never read.

Results:
* `Kept.noted`: an invariant may be taken to say of all errors where they are noticed.
* `Kept.holdExpressions`, `Kept.holdStatements`: **every rule keeps the invariant and yields what it
  builds.**
* `Kept.expressionRules`, `Kept.statementRules`: every rule yields trees of the tokens that are read.
-/

namespace Scriptlet.Parser

/-- **An invariant of parsing**, and what it says of the tokens. -/
structure Kept (I : State → Prop) (T : Token → Prop) : Prop where
  peek {s : State} (h : I s) : T s.peek
  read {s : State} {t : Token} {rest : List Token} (h : I s) (hs : s.rest = t :: rest)
    (ht : t.is .endOfText = false) : T t ∧ I (s.read t rest)
  note {s : State} {e : SyntaxError} (h : I s) (he : T e.token) : I (s.note e)
  take {s : State} (h : I s) : I s.take
  synchronize {s : State} (h : I s) : I s.synchronize

theorem State.errors_synchronize (s : State) : s.synchronize.errors = s.errors := by
  unfold State.synchronize
  split
  · rfl
  · split_ifs <;> rfl

/-- Besides the invariant, all errors noted so far are noticed at tokens that satisfy `T`. -/
theorem Kept.noted {I : State → Prop} {T : Token → Prop} (hK : Kept I T) :
    Kept (fun s => I s ∧ ∀ e ∈ s.errors, T e.token) T := by
  refine ⟨fun h => hK.peek h.1, fun h hs ht => ?_, fun h he => ?_, fun h => ?_, fun h => ?_⟩
  · obtain ⟨hT, hI⟩ := hK.read h.1 hs ht
    exact ⟨hT, hI, h.2⟩
  · refine ⟨hK.note h.1 he, fun e' he' => ?_⟩
    rcases Array.mem_push.mp he' with he' | rfl
    · exact h.2 e' he'
    · exact he
  · exact ⟨hK.take h.1, h.2⟩
  · refine ⟨hK.synchronize h.1, ?_⟩
    rw [State.errors_synchronize]
    exact h.2

/-- The invariant holds where the action ended, and what it yielded satisfies `V`. -/
def Result.Holds (I : State → Prop) (T : Token → Prop) {α : Type} (V : α → Prop) : Result α → Prop
  | .ok a s => V a ∧ I s
  | .fail e s => T e.token ∧ I s
  | .exhausted => True

/-- The action keeps the invariant, and what it yields satisfies `V`. -/
def Keeps (I : State → Prop) (T : Token → Prop) {α : Type} (V : α → Prop) (p : Parser α) : Prop :=
  ∀ s, I s → (p s).Holds I T V

section Actions

variable {I : State → Prop} {T : Token → Prop} {α β : Type} {V : α → Prop} {W : β → Prop}

theorem Keeps.seq {p : Parser α} {f : α → Parser β} (hp : Keeps I T V p)
    (hf : ∀ a, V a → Keeps I T W (f a)) : Keeps I T W (p >>= f) := by
  intro s hs
  have h := hp s hs
  cases hr : p s with
  | ok a s' =>
    rw [hr] at h
    rw [bind_of_ok hr]
    exact hf a h.1 s' h.2
  | fail e s' =>
    rw [hr] at h
    rw [bind_of_fail hr]
    exact h
  | exhausted =>
    rw [bind_of_exhausted hr]
    trivial

theorem keeps_pure {a : α} (h : V a) : Keeps I T V (pure a) := fun _ hs => ⟨h, hs⟩

theorem Keeps.map {p : Parser α} {g : α → β} (hp : Keeps I T V p) (hg : ∀ a, V a → W (g a)) :
    Keeps I T W (g <$> p) := hp.seq fun a ha => keeps_pure (hg a ha)

theorem keeps_exhausted : Keeps I T V exhausted := fun _ _ => trivial

theorem keeps_sees (k : Symbol) : Keeps I T (fun _ => True) (sees k) := fun _ hs => ⟨trivial, hs⟩

theorem keeps_atEnd : Keeps I T (fun _ => True) atEnd := fun _ hs => ⟨trivial, hs⟩

/-- An action that is taken only under a condition, and then what follows. -/
theorem Keeps.optionally {o : Parser Unit} {p : Parser α} (ho : Keeps I T (fun _ => True) o)
    (h : Keeps I T V p) (c : Prop) [Decidable c] :
    Keeps I T V (if c then o >>= fun _ => p else p) := by
  split_ifs
  · exact ho.seq fun _ _ => h
  · exact h

namespace Kept

variable (hK : Kept I T)

include hK

theorem fault (f : SyntaxFault) : Keeps I T V (Parser.fail f) := fun _ hs => ⟨hK.peek hs, hs⟩

theorem report {t : Token} (ht : T t) (f : SyntaxFault) :
    Keeps I T (fun _ => True) (Parser.report t f) := fun _ hs => ⟨trivial, hK.note hs ht⟩

theorem reportHere (f : SyntaxFault) : Keeps I T (fun _ => True) (Parser.reportHere f) :=
  fun _ hs => ⟨trivial, hK.note hs (hK.peek hs)⟩

theorem freshRef : Keeps I T (fun _ => True) Parser.freshRef := fun _ hs => ⟨trivial, hK.take hs⟩

theorem acceptIf {q : Token → Bool} (hq : ∀ t, q t = true → t.is .endOfText = false) :
    Keeps I T (fun o => ∀ t ∈ o, T t ∧ q t = true) (Parser.acceptIf q) := by
  intro s hs
  cases hrest : s.rest with
  | nil =>
    rw [acceptIf_nil hrest]
    exact ⟨nofun, hs⟩
  | cons t rest =>
    rw [acceptIf_cons hrest]
    split_ifs with ht
    · obtain ⟨hT, hI⟩ := hK.read hs hrest (hq t ht)
      refine ⟨fun u hu => ?_, hI⟩
      cases hu
      exact ⟨hT, ht⟩
    · exact ⟨nofun, hs⟩

theorem accept {k : Symbol} (hk : k ≠ .endOfText) :
    Keeps I T (fun o => ∀ t ∈ o, T t ∧ t.is k = true) (Parser.accept k) :=
  hK.acceptIf fun _ ht => Token.is_ne ht hk

theorem expect {k : Symbol} (hk : k ≠ .endOfText) (f : SyntaxFault) :
    Keeps I T (fun t => T t ∧ t.is k = true) (Parser.expect k f) := by
  refine (hK.accept hk).seq fun o ho => ?_
  cases o with
  | none => exact hK.fault f
  | some t => exact keeps_pure (ho t rfl)

/-- A declaration that fails is noted, and tokens are skipped. -/
theorem recover {p : Parser Stmt} {V : Stmt → Prop} (h : Keeps I T V p) :
    Keeps I T (fun o => ∀ st ∈ o, V st) (Parser.recover p) := by
  intro s hs
  have hp := h s hs
  unfold Parser.recover
  cases hr : p s with
  | ok st s' =>
    rw [hr] at hp
    refine ⟨fun u hu => ?_, hp.2⟩
    cases hu
    exact hp.1
  | fail e s' =>
    rw [hr] at hp
    exact ⟨nofun, hK.synchronize (hK.note hp.2 hp.1)⟩
  | exhausted => trivial

end Kept

end Actions

/-! ## What the rules put together -/

/-- **A property of expressions that the rules build up**, from tokens that satisfy `T`. -/
structure BuildsExpressions (T : Token → Prop) (E : Expr → Prop) : Prop where
  literal {value : Literal} (h : value.From T) : E (.literal value)
  unary {op : Token} {e : Expr} (ht : T op) (hop : (op.is .bang || op.is .minus) = true) (he : E e) :
    E (.unary op e)
  join {l : Level} {left right : Expr} {op : Token} (hl : E left) (ht : T op)
    (hop : l.operators.any op.is = true) (hr : E right) : E (l.join left op right)
  group {e : Expr} (he : E e) : E (.group e)
  var (ref : RefId) {name : Token} (ht : T name) (hn : name.is .identifier = true) : E (.var ref name)
  assign (ref' : RefId) {ref : RefId} {name : Token} {e : Expr} (hv : E (.var ref name)) (he : E e) :
    E (.assign ref' name e)
  call {callee : Expr} {paren : Token} {args : List Expr} (he : E callee) (ht : T paren)
    (hp : paren.is .rightParen = true) (hargs : ∀ a ∈ args, E a) : E (.call callee paren args)
  get {object : Expr} {name : Token} (he : E object) (ht : T name)
    (hn : name.is .identifier = true) : E (.get object name)
  set {object e : Expr} {name : Token} (hg : E (.get object name)) (he : E e) :
    E (.set object name e)
  this (ref : RefId) {keyword : Token} (ht : T keyword) (hk : keyword.is .thisKw = true) :
    E (.this ref keyword)
  super (ref : RefId) {keyword method : Token} (ht : T keyword) (hk : keyword.is .superKw = true)
    (hm : T method) (hn : method.is .identifier = true) : E (.super ref keyword method)

/-- **Properties of statements and functions that the rules build up**, from tokens that satisfy `T`
and expressions that satisfy `E`. -/
structure BuildsStatements (T : Token → Prop) (E : Expr → Prop) (S : Stmt → Prop)
    (F : FunctionDecl → Prop) : Prop where
  expr {e : Expr} (he : E e) : S (.expr e)
  declare {name : Token} {init : Option Expr} (ht : T name) (hn : name.is .identifier = true)
    (hinit : ∀ e ∈ init, E e) : S (.declare name init)
  block {body : List Stmt} (h : ∀ st ∈ body, S st) : S (.block body)
  branch {cond : Expr} {thenDo : Stmt} {elseDo : Option Stmt} (hc : E cond) (ht : S thenDo)
    (he : ∀ st ∈ elseDo, S st) : S (.branch cond thenDo elseDo)
  loop {cond : Expr} {body : Stmt} (hc : E cond) (hb : S body) : S (.loop cond body)
  function {decl : FunctionDecl} (h : F decl) : S (.function decl)
  ret {keyword : Token} {value : Option Expr} (ht : T keyword) (hk : keyword.is .returnKw = true)
    (hv : ∀ e ∈ value, E e) : S (.ret keyword value)
  classDecl {name : Token} {superclass : Option Superclass} {interface : Option Token}
    {methods : List FunctionDecl} (ht : T name) (hn : name.is .identifier = true)
    (hs : ∀ parent ∈ superclass, T parent.name ∧ parent.name.is .identifier = true)
    (hi : ∀ i ∈ interface, T i ∧ i.is .identifier = true) (hm : ∀ d ∈ methods, F d) :
    S (.classDecl ⟨name, superclass, interface, methods⟩)
  decl {name : Token} {params : List Token} {body : List Stmt} (ht : T name)
    (hn : name.is .identifier = true) (hp : ∀ p ∈ params, T p ∧ p.is .identifier = true)
    (hb : ∀ st ∈ body, S st) : F ⟨name, params, body⟩

/-! ## The rules for expressions -/

/-- The rules for expressions that are granted `n` steps keep the invariant, and `E` holds of what they
yield. -/
structure HoldExpressions (I : State → Prop) (T : Token → Prop) (E : Expr → Prop) (n : Nat) :
    Prop where
  expression : Keeps I T E (expression n)
  level (l : Level) : Keeps I T E (level n l)
  operand (l : Level) : Keeps I T E (operand n l)
  more (l : Level) {e : Expr} (he : E e) : Keeps I T E (more n l e)
  unary : Keeps I T E (unary n)
  call : Keeps I T E (call n)
  suffixes {e : Expr} (he : E e) : Keeps I T E (suffixes n e)
  arguments (k : Nat) : Keeps I T (fun es => ∀ e ∈ es, E e) (arguments n k)
  primary : Keeps I T E (primary n)

namespace Kept

variable {I : State → Prop} {T : Token → Prop} {E : Expr → Prop} (hK : Kept I T)
  (hE : BuildsExpressions T E) {n : Nat}

include hK hE

theorem superAccess {keyword : Token} (h : T keyword) (hk : keyword.is .superKw = true) :
    Keeps I T E (superAccess keyword) :=
  (hK.expect (by decide) _).seq fun _ _ => (hK.expect (by decide) _).seq fun _ hmethod =>
    hK.freshRef.seq fun ref _ => keeps_pure (hE.super ref h hk hmethod.1 hmethod.2)

/-- Where no token is left, the one read last is the one that errors are noticed at. -/
theorem lastLiteral {s : State} (hs : I s) (h : s.rest = []) :
    (Parser.lastLiteral s).Holds I T E := by
  have hlast : T s.last := by
    have hpeek := hK.peek hs
    rwa [State.peek, h] at hpeek
  unfold Parser.lastLiteral
  split
  · next hkind => exact ⟨hE.literal ⟨s.last, hlast, hkind⟩, hs⟩
  · next hkind => exact ⟨hE.literal ⟨s.last, hlast, hkind⟩, hs⟩
  · exact ⟨hK.peek hs, hs⟩

theorem primary_succ (ih : HoldExpressions I T E n) : Keeps I T E (primary (n + 1)) := by
  intro s hs
  unfold primary
  cases h : s.rest with
  | nil => exact hK.lastLiteral hE hs h
  | cons t rest =>
    have read {k : TokenKind} (hkind : t.kind = k) (hk : k ≠ .symbol .endOfText) :
        T t ∧ I (s.read t rest) := by
      refine hK.read hs h ?_
      rw [Token.is, hkind]
      exact decide_eq_false hk
    have is {k : Symbol} (hkind : t.kind = .symbol k) : t.is k = true := decide_eq_true hkind
    dsimp only
    split
    · next value hkind =>
      obtain ⟨hT, hI⟩ := read hkind (by simp)
      exact ⟨hE.literal ⟨t, hT, hkind⟩, hI⟩
    · next value hkind =>
      obtain ⟨hT, hI⟩ := read hkind (by simp)
      exact ⟨hE.literal ⟨t, hT, hkind⟩, hI⟩
    · next hkind => exact ⟨hE.literal trivial, (read hkind (by simp)).2⟩
    · next hkind => exact ⟨hE.literal trivial, (read hkind (by simp)).2⟩
    · next hkind => exact ⟨hE.literal trivial, (read hkind (by simp)).2⟩
    · next hkind => exact ⟨hE.literal trivial, (read hkind (by simp)).2⟩
    · next hkind =>
      obtain ⟨hT, hI⟩ := read hkind (by simp)
      exact hK.superAccess hE hT (is hkind) _ hI
    · next hkind =>
      obtain ⟨hT, hI⟩ := read hkind (by simp)
      exact ⟨hE.this _ hT (is hkind), hK.take hI⟩
    · next hkind =>
      obtain ⟨hT, hI⟩ := read hkind (by simp)
      exact ⟨hE.var _ hT (is hkind), hK.take hI⟩
    · next hkind =>
      have hgroup : Keeps I T E (do
          let inner ← expression n
          let _ ← Parser.expect .rightParen .unclosedGroup
          return Expr.group inner) :=
        ih.expression.seq fun _ he => (hK.expect (by decide) _).seq fun _ _ =>
          keeps_pure (hE.group he)
      exact hgroup _ (read hkind (by simp)).2
    · next hkind => exact ih.call _ (read hkind (by simp)).2
    · exact ⟨hK.peek hs, hs⟩

theorem suffixes_succ (ih : HoldExpressions I T E n) {e : Expr} (he : E e) :
    Keeps I T E (suffixes (n + 1) e) := by
  have applied {args : List Expr} (hargs : ∀ a ∈ args, E a) :
      Keeps I T E (do
        let paren ← Parser.expect .rightParen .unclosedArguments
        suffixes n (.call e paren args)) :=
    (hK.expect (by decide) _).seq fun _ hparen =>
      ih.suffixes (hE.call he hparen.1 hparen.2 hargs)
  unfold suffixes
  refine (hK.accept (by decide)).seq fun o ho => ?_
  cases o with
  | some _ =>
    refine (keeps_sees _).seq fun empty _ => ?_
    cases empty with
    | true =>
      have none : ∀ a ∈ ([] : List Expr), E a := List.forall_mem_nil E
      exact (keeps_pure none).seq fun _ => applied
    | false => exact (ih.arguments 0).seq fun _ => applied
  | none =>
    refine (hK.accept (by decide)).seq fun o ho => ?_
    cases o with
    | some _ =>
      refine (hK.expect (by decide) _).seq fun name hname => ?_
      exact (hK.report hname.1 _).optionally (ih.suffixes (hE.get he hname.1 hname.2)) _
    | none => exact keeps_pure he

theorem expression_succ (ih : HoldExpressions I T E n) : Keeps I T E (expression (n + 1)) := by
  unfold expression
  refine (ih.level _).seq fun target htarget => (hK.accept (by decide)).seq fun o ho => ?_
  cases o with
  | none => exact keeps_pure htarget
  | some equals =>
    refine ih.expression.seq fun value hvalue => ?_
    cases target
    case var => exact hK.freshRef.seq fun ref _ => keeps_pure (hE.assign ref htarget hvalue)
    case get => exact keeps_pure (hE.set htarget hvalue)
    all_goals exact (hK.report (ho equals rfl).1 _).seq fun _ _ => keeps_pure htarget

/-- **The rules for expressions keep the invariant**, by induction on the steps. -/
theorem holdExpressions : ∀ n, HoldExpressions I T E n
  | 0 =>
    { expression := keeps_exhausted
      level := fun _ => keeps_exhausted
      operand := fun _ => keeps_exhausted
      more := fun _ _ _ => keeps_exhausted
      unary := keeps_exhausted
      call := keeps_exhausted
      suffixes := fun _ => keeps_exhausted
      arguments := fun _ => keeps_exhausted
      primary := keeps_exhausted }
  | n + 1 => by
    have ih := holdExpressions n
    refine ⟨hK.expression_succ hE ih, fun l => ?_, fun l => ?_, fun l e he => ?_, ?_, ?_,
      fun he => hK.suffixes_succ hE ih he, fun k => ?_, hK.primary_succ hE ih⟩
    · unfold level
      exact (ih.operand l).seq fun left hleft => ih.more l hleft
    · unfold operand
      cases l.tighter with
      | some l' => exact ih.level l'
      | none => exact ih.unary
    · unfold more
      refine (hK.acceptIf fun _ => Level.operator_ne_end).seq fun o ho => ?_
      cases o with
      | none => exact keeps_pure he
      | some op =>
        obtain ⟨hT, hop⟩ := ho op rfl
        exact (ih.operand l).seq fun right hright => ih.more l (hE.join he hT hop hright)
    · unfold unary
      have hq (t : Token) (ht : (t.is .bang || t.is .minus) = true) : t.is .endOfText = false := by
        rcases Bool.or_eq_true_iff.mp ht with ht | ht
        · exact Token.is_ne ht (by decide)
        · exact Token.is_ne ht (by decide)
      refine (hK.acceptIf hq).seq fun o ho => ?_
      cases o with
      | some op =>
        obtain ⟨hT, hop⟩ := ho op rfl
        exact ih.unary.seq fun e he => keeps_pure (hE.unary hT hop he)
      | none => exact ih.call
    · unfold call
      exact ih.primary.seq fun callee hcallee => ih.suffixes hcallee
    · unfold arguments
      refine (hK.reportHere _).optionally (ih.expression.seq fun arg harg =>
        (hK.accept (by decide)).seq fun o ho => ?_) _
      cases o with
      | some _ =>
        exact (ih.arguments (k + 1)).seq fun args hargs =>
          keeps_pure (List.forall_mem_cons.mpr ⟨harg, hargs⟩)
      | none => exact keeps_pure (List.forall_mem_singleton.mpr harg)

end Kept

/-! ## The rules for statements -/

/-- The rules for statements that are granted `n` steps keep the invariant, and `S` and `F` hold of what
they yield. -/
structure HoldStatements (I : State → Prop) (T : Token → Prop) (S : Stmt → Prop)
    (F : FunctionDecl → Prop) (n : Nat) : Prop where
  declarations (b : Bool) : Keeps I T (fun sts => ∀ st ∈ sts, S st) (declarations n b)
  declaration : Keeps I T S (declaration n)
  classDeclaration : Keeps I T S (classDeclaration n)
  methods : Keeps I T (fun ds => ∀ d ∈ ds, F d) (methods n)
  function (form : FunctionForm) : Keeps I T F (function n form)
  block : Keeps I T (fun sts => ∀ st ∈ sts, S st) (block n)
  statement : Keeps I T S (statement n)
  forStatement : Keeps I T S (forStatement n)
  ifStatement : Keeps I T S (ifStatement n)
  whileStatement : Keeps I T S (whileStatement n)

/-- A `for` is put together from a block and a loop. -/
theorem BuildsStatements.forLoop {T : Token → Prop} {E : Expr → Prop} {S : Stmt → Prop}
    {F : FunctionDecl → Prop} (hE : BuildsExpressions T E) (hS : BuildsStatements T E S F)
    {init : Option Stmt} {cond step : Option Expr} {body : Stmt} (hinit : ∀ st ∈ init, S st)
    (hcond : ∀ e ∈ cond, E e) (hstep : ∀ e ∈ step, E e) (hbody : S body) :
    S (forLoop init cond step body) := by
  have hcond' : E (cond.getD (.literal (.bool true))) := by
    cases cond with
    | none => exact hE.literal trivial
    | some e => exact hcond e rfl
  have pair {st st' : Stmt} (h : S st) (h' : S st') : S (.block [st, st']) :=
    hS.block (List.forall_mem_cons.mpr ⟨h, List.forall_mem_singleton.mpr h'⟩)
  have enclose {st : Stmt} (hst : S st) : ∀ i ∈ init, S (.block [i, st]) :=
    fun i hi => pair (hinit i hi) hst
  unfold Parser.forLoop
  cases step with
  | none =>
    cases init with
    | none => exact hS.loop hcond' hbody
    | some st => exact enclose (hS.loop hcond' hbody) st rfl
  | some e =>
    have hblock : S (.block [body, .expr e]) := pair hbody (hS.expr (hstep e rfl))
    cases init with
    | none => exact hS.loop hcond' hblock
    | some st => exact enclose (hS.loop hcond' hblock) st rfl

namespace Kept

variable {I : State → Prop} {T : Token → Prop} {E : Expr → Prop} {S : Stmt → Prop}
  {F : FunctionDecl → Prop} (hK : Kept I T) (hE : BuildsExpressions T E)
  (hS : BuildsStatements T E S F) {n : Nat}

include hK

theorem parameters :
    ∀ n k, Keeps I T (fun ps => ∀ p ∈ ps, T p ∧ p.is .identifier = true) (parameters n k)
  | 0, _ => keeps_exhausted
  | n + 1, k => by
    unfold Parser.parameters
    refine (hK.reportHere _).optionally ((hK.expect (by decide) _).seq fun param hparam =>
      (hK.accept (by decide)).seq fun o _ => ?_) _
    cases o with
    | some _ =>
      exact (parameters n (k + 1)).seq fun ps hps =>
        keeps_pure (List.forall_mem_cons.mpr ⟨hparam, hps⟩)
    | none => exact keeps_pure (List.forall_mem_singleton.mpr hparam)

theorem nameAfter {k : Symbol} (hk : k ≠ .endOfText) (f : SyntaxFault) :
    Keeps I T (fun o => ∀ t ∈ o, T t ∧ t.is .identifier = true) (nameAfter k f) := by
  unfold Parser.nameAfter
  refine (hK.accept hk).seq fun o _ => ?_
  cases o with
  | some _ =>
    refine (hK.expect (by decide) _).map fun t ht u hu => ?_
    cases hu
    exact ht
  | none => exact keeps_pure nofun

theorem superclass :
    Keeps I T (fun o => ∀ parent ∈ o, T parent.name ∧ parent.name.is .identifier = true)
      superclass := by
  unfold Parser.superclass
  refine (hK.nameAfter (by decide) _).seq fun o ho => ?_
  cases o with
  | some name =>
    refine hK.freshRef.seq fun ref _ => keeps_pure fun u hu => ?_
    cases hu
    exact ho name rfl
  | none => exact keeps_pure nofun

include hE

theorem expressionUnless (n : Nat) (k : Symbol) :
    Keeps I T (fun o => ∀ e ∈ o, E e) (expressionUnless n k) := by
  unfold Parser.expressionUnless
  refine (keeps_sees k).seq fun seen _ => ?_
  cases seen with
  | true => exact keeps_pure nofun
  | false =>
    refine (hK.holdExpressions hE n).expression.seq fun e he => keeps_pure fun u hu => ?_
    cases hu
    exact he

include hS

theorem letDeclaration (n : Nat) : Keeps I T S (letDeclaration n) := by
  unfold Parser.letDeclaration
  refine (hK.expect (by decide) _).seq fun name hname => (hK.accept (by decide)).seq fun o _ => ?_
  have declared {init : Option Expr} (hinit : ∀ e ∈ init, E e) : S (.declare name init) :=
    hS.declare hname.1 hname.2 hinit
  cases o with
  | some _ =>
    refine Keeps.seq (V := fun o => ∀ e ∈ o, E e)
      ((hK.holdExpressions hE n).expression.map fun e he u hu => ?_) fun init hinit =>
        (hK.expect (by decide) _).seq fun _ _ => keeps_pure (declared hinit)
    cases hu
    exact he
  | none =>
    refine Keeps.seq (V := fun o => ∀ e ∈ o, E e) (keeps_pure nofun) fun init hinit =>
      (hK.expect (by decide) _).seq fun _ _ => keeps_pure (declared hinit)

theorem expressionStatement (n : Nat) : Keeps I T S (expressionStatement n) :=
  (hK.holdExpressions hE n).expression.seq fun _ he =>
    (hK.expect (by decide) _).seq fun _ _ => keeps_pure (hS.expr he)

theorem returnStatement (n : Nat) {keyword : Token} (h : T keyword)
    (hk : keyword.is .returnKw = true) : Keeps I T S (returnStatement n keyword) :=
  (hK.expressionUnless hE n _).seq fun _ hvalue =>
    (hK.expect (by decide) _).seq fun _ _ => keeps_pure (hS.ret h hk hvalue)

theorem forInit (n : Nat) : Keeps I T (fun o => ∀ st ∈ o, S st) (forInit n) := by
  have chosen {p : Parser Stmt} (hp : Keeps I T S p) :
      Keeps I T (fun o => ∀ st ∈ o, S st) (some <$> p) := by
    refine hp.map fun st hst u hu => ?_
    cases hu
    exact hst
  unfold Parser.forInit
  refine (hK.accept (by decide)).seq fun o _ => ?_
  cases o with
  | some _ => exact keeps_pure nofun
  | none =>
    refine (hK.accept (by decide)).seq fun o _ => ?_
    cases o with
    | some _ => exact chosen (hK.letDeclaration hE hS n)
    | none => exact chosen (hK.expressionStatement hE hS n)

omit hE hS in
theorem declarations_succ (ih : HoldStatements I T S F n) (b : Bool) :
    Keeps I T (fun sts => ∀ st ∈ sts, S st) (declarations (n + 1) b) := by
  unfold declarations
  refine keeps_atEnd.seq fun ended _ => (keeps_sees _).seq fun closed _ => ?_
  split_ifs
  · exact keeps_pure (List.forall_mem_nil S)
  · refine (hK.recover ih.declaration).seq fun o ho => ?_
    cases o with
    | some st =>
      exact (ih.declarations b).seq fun sts hsts =>
        keeps_pure (List.forall_mem_cons.mpr ⟨ho st rfl, hsts⟩)
    | none => exact ih.declarations b

theorem declaration_succ (ih : HoldStatements I T S F n) : Keeps I T S (declaration (n + 1)) := by
  unfold declaration
  refine (hK.accept (by decide)).seq fun o _ => ?_
  cases o with
  | some _ => exact ih.classDeclaration
  | none =>
    refine (hK.accept (by decide)).seq fun o _ => ?_
    cases o with
    | some _ => exact (ih.function _).seq fun _ hd => keeps_pure (hS.function hd)
    | none =>
      refine (hK.accept (by decide)).seq fun o _ => ?_
      cases o with
      | some _ => exact hK.letDeclaration hE hS n
      | none => exact ih.statement

theorem statement_succ (ih : HoldStatements I T S F n) : Keeps I T S (statement (n + 1)) := by
  unfold statement
  refine (hK.accept (by decide)).seq fun o _ => ?_
  cases o with
  | some _ => exact ih.forStatement
  | none =>
    refine (hK.accept (by decide)).seq fun o _ => ?_
    cases o with
    | some _ => exact ih.ifStatement
    | none =>
      refine (hK.accept (by decide)).seq fun o ho => ?_
      cases o with
      | some keyword =>
        obtain ⟨hT, hk⟩ := ho keyword rfl
        exact hK.returnStatement hE hS n hT hk
      | none =>
        refine (hK.accept (by decide)).seq fun o _ => ?_
        cases o with
        | some _ => exact ih.whileStatement
        | none =>
          refine (hK.accept (by decide)).seq fun o _ => ?_
          cases o with
          | some _ => exact ih.block.seq fun _ hbody => keeps_pure (hS.block hbody)
          | none => exact hK.expressionStatement hE hS n

omit hE in
theorem function_succ (ih : HoldStatements I T S F n) (form : FunctionForm) :
    Keeps I T F (function (n + 1) form) := by
  have rest {name : Token} {params : List Token} (hname : T name ∧ name.is .identifier = true)
      (hparams : ∀ p ∈ params, T p ∧ p.is .identifier = true) :
      Keeps I T F (do
        let _ ← Parser.expect .rightParen .unclosedParameters
        let _ ← Parser.expect .leftBrace (.noFunctionBody form)
        let body ← block n
        return FunctionDecl.mk name params body) :=
    (hK.expect (by decide) _).seq fun _ _ => (hK.expect (by decide) _).seq fun _ _ =>
      ih.block.seq fun _ hbody => keeps_pure (hS.decl hname.1 hname.2 hparams hbody)
  unfold function
  refine (hK.expect (by decide) _).seq fun name hname => (hK.expect (by decide) _).seq fun _ _ =>
    (keeps_sees _).seq fun empty _ => ?_
  cases empty with
  | true =>
    have none : ∀ p ∈ ([] : List Token), T p ∧ p.is .identifier = true := List.forall_mem_nil _
    exact (keeps_pure none).seq fun _ hparams => rest hname hparams
  | false => exact (hK.parameters n 0).seq fun _ hparams => rest hname hparams

omit hK hE hS in
theorem methods_succ (ih : HoldStatements I T S F n) :
    Keeps I T (fun ds => ∀ d ∈ ds, F d) (methods (n + 1)) := by
  have step : Keeps I T (fun ds => ∀ d ∈ ds, F d) (do
      let method ← function n .method
      return method :: (← methods n)) :=
    (ih.function _).seq fun _ hd => ih.methods.seq fun _ hds =>
      keeps_pure (List.forall_mem_cons.mpr ⟨hd, hds⟩)
  unfold methods
  refine (keeps_sees _).seq fun closed _ => keeps_atEnd.seq fun ended _ => ?_
  split_ifs
  · exact keeps_pure (List.forall_mem_nil F)
  · exact step

theorem ifStatement_succ (ih : HoldStatements I T S F n) :
    Keeps I T S (ifStatement (n + 1)) := by
  unfold ifStatement
  refine (hK.expect (by decide) _).seq fun _ _ =>
    (hK.holdExpressions hE n).expression.seq fun cond hcond => (hK.expect (by decide) _).seq
      fun _ _ => ih.statement.seq fun thenDo hthen => (hK.accept (by decide)).seq fun o _ => ?_
  cases o with
  | some _ =>
    refine ih.statement.seq fun elseDo helse => keeps_pure (hS.branch hcond hthen fun u hu => ?_)
    cases hu
    exact helse
  | none => exact keeps_pure (hS.branch hcond hthen fun u hu => (Option.not_mem_none u hu).elim)

/-- **The rules for statements keep the invariant**, by induction on the steps. -/
theorem holdStatements : ∀ n, HoldStatements I T S F n
  | 0 =>
    { declarations := fun _ => keeps_exhausted
      declaration := keeps_exhausted
      classDeclaration := keeps_exhausted
      methods := keeps_exhausted
      function := fun _ => keeps_exhausted
      block := keeps_exhausted
      statement := keeps_exhausted
      forStatement := keeps_exhausted
      ifStatement := keeps_exhausted
      whileStatement := keeps_exhausted }
  | n + 1 => by
    have ih := holdStatements n
    refine ⟨hK.declarations_succ ih, hK.declaration_succ hE hS ih, ?_, methods_succ ih,
      hK.function_succ hS ih, ?_, hK.statement_succ hE hS ih, ?_, hK.ifStatement_succ hE hS ih, ?_⟩
    · unfold classDeclaration
      exact (hK.expect (by decide) _).seq fun _ hname => hK.superclass.seq fun _ hsuperclass =>
        (hK.nameAfter (by decide) _).seq fun _ hinterface => (hK.expect (by decide) _).seq fun _ _ =>
          ih.methods.seq fun _ hmethods => (hK.expect (by decide) _).seq fun _ _ =>
            keeps_pure (hS.classDecl hname.1 hname.2 hsuperclass hinterface hmethods)
    · unfold block
      exact (ih.declarations true).seq fun _ hbody => (hK.expect (by decide) _).seq fun _ _ =>
        keeps_pure hbody
    · unfold forStatement
      exact (hK.expect (by decide) _).seq fun _ _ => (hK.forInit hE hS n).seq fun _ hinit =>
        (hK.expressionUnless hE n _).seq fun _ hcond => (hK.expect (by decide) _).seq fun _ _ =>
          (hK.expressionUnless hE n _).seq fun _ hstep => (hK.expect (by decide) _).seq fun _ _ =>
            ih.statement.seq fun _ hbody => keeps_pure (hS.forLoop hE hinit hcond hstep hbody)
    · unfold whileStatement
      exact (hK.expect (by decide) _).seq fun _ _ =>
        (hK.holdExpressions hE n).expression.seq fun _ hcond => (hK.expect (by decide) _).seq
          fun _ _ => ih.statement.seq fun _ hbody => keeps_pure (hS.loop hcond hbody)

end Kept

/-! ## Trees of the tokens that are read -/

/-- The rules for expressions that are granted `n` steps keep the invariant. -/
structure KeepExpressions (I : State → Prop) (T : Token → Prop) (n : Nat) : Prop where
  expression : Keeps I T (Expr.Over T) (expression n)
  level (l : Level) : Keeps I T (Expr.Over T) (level n l)
  operand (l : Level) : Keeps I T (Expr.Over T) (operand n l)
  more (l : Level) {e : Expr} (he : e.Over T) : Keeps I T (Expr.Over T) (more n l e)
  unary : Keeps I T (Expr.Over T) (unary n)
  call : Keeps I T (Expr.Over T) (call n)
  suffixes {e : Expr} (he : e.Over T) : Keeps I T (Expr.Over T) (suffixes n e)
  arguments (k : Nat) : Keeps I T (Expr.OverAll T) (arguments n k)
  primary : Keeps I T (Expr.Over T) (primary n)

/-- The rules for statements that are granted `n` steps keep the invariant. -/
structure KeepStatements (I : State → Prop) (T : Token → Prop) (n : Nat) : Prop where
  declarations (b : Bool) : Keeps I T (Stmt.OverAll T) (declarations n b)
  declaration : Keeps I T (Stmt.Over T) (declaration n)
  classDeclaration : Keeps I T (Stmt.Over T) (classDeclaration n)
  methods : Keeps I T (FunctionDecl.OverAll T) (methods n)
  function (form : FunctionForm) : Keeps I T (FunctionDecl.Over T) (function n form)
  block : Keeps I T (Stmt.OverAll T) (block n)
  statement : Keeps I T (Stmt.Over T) (statement n)
  forStatement : Keeps I T (Stmt.Over T) (forStatement n)
  ifStatement : Keeps I T (Stmt.Over T) (ifStatement n)
  whileStatement : Keeps I T (Stmt.Over T) (whileStatement n)

theorem builds_expressions_over (T : Token → Prop) : BuildsExpressions T (Expr.Over T) where
  literal _ := trivial
  unary ht _ he := ⟨ht, he⟩
  join {l _ _ _} hl ht _ hr := by cases l <;> exact ⟨hl, ht, hr⟩
  group he := he
  var _ _ ht _ := ht
  assign _ _ _ _ hv he := ⟨hv, he⟩
  call he ht _ hargs := ⟨he, ht, Expr.overAll_iff.mpr hargs⟩
  get he ht _ := ⟨he, ht⟩
  set hg he := ⟨hg.1, hg.2, he⟩
  this _ _ ht _ := ht
  super _ _ _ ht _ hm _ := ⟨ht, hm⟩

theorem builds_statements_over (T : Token → Prop) :
    BuildsStatements T (Expr.Over T) (Stmt.Over T) (FunctionDecl.Over T) where
  expr he := he
  declare {_ init} ht _ hinit := by
    cases init with
    | none => exact ht
    | some e => exact ⟨ht, hinit e rfl⟩
  block h := Stmt.overAll_iff.mpr h
  branch {_ _ elseDo} hc ht he := by
    cases elseDo with
    | none => exact ⟨hc, ht⟩
    | some st => exact ⟨hc, ht, he st rfl⟩
  loop hc hb := ⟨hc, hb⟩
  function h := h
  ret {_ value} ht _ hv := by
    cases value with
    | none => exact ht
    | some e => exact ⟨ht, hv e rfl⟩
  classDecl ht _ hs hi hm :=
    ⟨ht, fun parent h => (hs parent h).1, fun i h => (hi i h).1, FunctionDecl.overAll_iff.mpr hm⟩
  decl ht _ hp hb := ⟨ht, fun p h => (hp p h).1, Stmt.overAll_iff.mpr hb⟩

theorem Keeps.imp {I : State → Prop} {T : Token → Prop} {α : Type} {V W : α → Prop} {p : Parser α}
    (hp : Keeps I T V p) (h : ∀ a, V a → W a) : Keeps I T W p := by
  intro s hs
  have hr := hp s hs
  cases hps : p s <;> rw [hps] at hr
  · exact ⟨h _ hr.1, hr.2⟩
  · exact hr
  · trivial

namespace Kept

variable {I : State → Prop} {T : Token → Prop} (hK : Kept I T)

include hK

/-- **The rules for expressions yield expressions of the tokens that are read.** -/
theorem expressionRules (n : Nat) : KeepExpressions I T n :=
  have rules := hK.holdExpressions (builds_expressions_over T) n
  { expression := rules.expression
    level := rules.level
    operand := rules.operand
    more := rules.more
    unary := rules.unary
    call := rules.call
    suffixes := rules.suffixes
    arguments := fun k => (rules.arguments k).imp fun _ => Expr.overAll_iff.mpr
    primary := rules.primary }

/-- **The rules for statements yield statements of the tokens that are read.** -/
theorem statementRules (n : Nat) : KeepStatements I T n :=
  have rules := hK.holdStatements (builds_expressions_over T) (builds_statements_over T) n
  { declarations := fun b => (rules.declarations b).imp fun _ => Stmt.overAll_iff.mpr
    declaration := rules.declaration
    classDeclaration := rules.classDeclaration
    methods := rules.methods.imp fun _ => FunctionDecl.overAll_iff.mpr
    function := rules.function
    block := rules.block.imp fun _ => Stmt.overAll_iff.mpr
    statement := rules.statement
    forStatement := rules.forStatement
    ifStatement := rules.ifStatement
    whileStatement := rules.whileStatement }

end Kept

end Scriptlet.Parser
