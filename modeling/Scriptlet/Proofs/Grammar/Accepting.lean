import Scriptlet.Proofs.Grammar.Lookahead
import Mathlib.Order.Filter.AtTopBot.Basic

/-!
# Accepting expressions

`Accepts p good ts rest`: from every state whose tokens are `ts` and then `rest`, the rule `p` with
enough steps reads exactly `ts`, notes no error and has a good value. There is one lemma for each
alternative of a rule: if its parts are accepted, so is the whole, when the tokens that follow do
not continue it.

The rules that the grammar has left-recursive and the parser iterates, `level` and `call`, are
treated in the middle of the iteration (`Leads`): after the tokens of a derivation the parser is in
the loop with its tree in hand, whatever follows. So is `new`, whose callee takes all suffixes that
follow.
-/

namespace Scriptlet.Grammar

open Filter (atTop)
open Scriptlet.Parser (State Result bind_of_ok bind_of_fail bind_of_exhausted bind_eq_ok)

/-! ## Accepting -/

/-- `s'` comes after `s`, with `rest` still to read and no further error. -/
structure Reaches (s : State) (rest : List Token) (s' : State) : Prop where
  rest : s'.rest = rest
  errors : s'.errors = s.errors

theorem Reaches.trans {s t u : State} {rest rest' : List Token} (h : Reaches s rest t)
    (h' : Reaches t rest' u) : Reaches s rest' u := ⟨h'.rest, h'.errors.trans h.errors⟩

theorem reaches_read (s : State) (t : Token) (rest : List Token) :
    Reaches s rest (s.read t rest) := ⟨rfl, rfl⟩

theorem Reaches.take {s s' : State} {rest : List Token} (h : Reaches s rest s') :
    Reaches s rest s'.take := ⟨h.rest, h.errors⟩

theorem Reaches.read {s s' : State} {rest : List Token} {t : Token}
    (h : Reaches s (t :: rest) s') : Reaches s rest (s'.read t rest) := ⟨rfl, h.errors⟩

section Accepting

variable {α β : Type}

/-- With enough steps, `p` reads `ts` when `rest` follows, without an error, for a good value. -/
def Accepts (p : Nat → Parser α) (good : α → Prop) (ts rest : List Token) : Prop :=
  ∀ s : State, s.rest = ts ++ rest →
    ∃ a s', good a ∧ Reaches s rest s' ∧ ∀ᶠ n in atTop, p n s = .ok a s'

/-- With enough steps, `p` goes on as `q` does after `ts`, with a good value so far. -/
def Leads (p : Nat → Parser α) (q : Nat → α → Parser α) (good : α → Prop) (ts rest : List Token) :
    Prop :=
  ∀ s : State, s.rest = ts ++ rest → ∃ a s', good a ∧ Reaches s rest s' ∧
    ∀ r, (∀ᶠ n in atTop, q n a s' = r) → ∀ᶠ n in atTop, p n s = r

theorem eventually_of_succ {P : Nat → Prop} (h : ∀ᶠ n in atTop, P (n + 1)) :
    ∀ᶠ n in atTop, P n := by
  rw [← Filter.map_add_atTop_eq_nat 1]
  exact h

theorem Leads.accepts {p : Nat → Parser α} {q : Nat → α → Parser α} {good : α → Prop}
    {ts rest : List Token} (h : Leads p q good ts rest)
    (hq : ∀ a s, s.rest = rest → ∀ᶠ n in atTop, q n a s = .ok a s) : Accepts p good ts rest := by
  intro s hs
  obtain ⟨a, s', hgood, hreach, hlead⟩ := h s hs
  exact ⟨a, s', hgood, hreach, hlead _ (hq a s' hreach.rest)⟩

theorem accept_some {k : Symbol} {s : State} {t : Token} {rest : List Token}
    (hs : s.rest = t :: rest) (ht : t.is k = true) :
    Parser.accept k s = .ok (some t) (s.read t rest) :=
  acceptIf_eq_ok.mpr (.inl ⟨t, rest, hs, ht, rfl, rfl⟩)

theorem accept_none {k : Symbol} {s : State} (h : Without k s.rest) :
    Parser.accept k s = .ok none s :=
  acceptIf_eq_ok.mpr (.inr ⟨h, rfl, rfl⟩)

theorem expect_some {k : Symbol} {f : SyntaxFault} {s : State} {t : Token} {rest : List Token}
    (hs : s.rest = t :: rest) (ht : t.is k = true) :
    Parser.expect k f s = .ok t (s.read t rest) :=
  expect_eq_ok.mpr ⟨rest, hs, ht, rfl⟩

theorem sees_false {k : Symbol} {s : State} (h : Without k s.rest) : s.sees k = false := by
  unfold State.sees
  split
  · rfl
  · next t rest hs => exact h t (by rw [hs]; rfl)

theorem sees_true {k : Symbol} {s : State} {t : Token} {rest : List Token}
    (hs : s.rest = t :: rest) (ht : t.is k = true) : s.sees k = true := by
  unfold State.sees
  rw [hs]
  exact ht

end Accepting

/-! ## Expressions -/

/-- The same expression up to identities. -/
def SameExpr (e e' : Expr) : Prop := e'.unlabelled = e.unlabelled

theorem suffixes_stop (e : Expr) {s : State} (h : Stops .call s.rest) :
    ∀ᶠ n in atTop, Parser.suffixes n e s = .ok e s := by
  refine eventually_of_succ (.of_forall fun n => ?_)
  unfold Parser.suffixes
  rw [bind_of_ok (accept_none (h _ (by decide)))]
  dsimp only
  rw [bind_of_ok (accept_none (h _ (by decide)))]
  rfl

theorem more_stop (l : Level) (e : Expr) {s : State} (h : Stops (.level l) s.rest) :
    ∀ᶠ n in atTop, Parser.more n l e s = .ok e s := by
  refine eventually_of_succ (.of_forall fun n => ?_)
  have hnone : Parser.acceptIf (fun t => l.operators.any t.is) s = .ok none s := by
    refine acceptIf_eq_ok.mpr (.inr ⟨fun t ht => ?_, rfl, rfl⟩)
    rw [List.any_eq_false]
    intro k hk
    rw [h k (mem_tightSymbols.mpr (.inr (.inr ⟨l, le_refl _, hk⟩))) t ht]
    exact Bool.false_ne_true
  unfold Parser.more
  rw [bind_of_ok hnone]
  rfl

/-- After the suffixes of a call there is no other. -/
theorem suffixes_stopped {n : Nat} {e e' : Expr} {s s' : State}
    (h : Parser.suffixes n e s = .ok e' s') : Stops .call s'.rest := by
  induction n generalizing e s with
  | zero => cases h
  | succ n ih =>
    unfold Parser.suffixes at h
    rw [bind_eq_ok] at h
    obtain ⟨o, t, ho, h⟩ := h
    rcases acceptIf_eq_ok.mp ho with ⟨left, rest, hr, hl, rfl, rfl⟩ | ⟨hleft, rfl, rfl⟩
    · rw [bind_eq_ok] at h
      obtain ⟨empty, u, hu, h⟩ := h
      cases empty <;>
      · simp only [Bool.false_eq_true, if_false, if_true] at h
        rw [bind_eq_ok] at h
        obtain ⟨args, v, hv, h⟩ := h
        rw [bind_eq_ok] at h
        obtain ⟨right, w, hw, h⟩ := h
        exact ih h
    · rw [bind_eq_ok] at h
      obtain ⟨o, t, ho, h⟩ := h
      rcases acceptIf_eq_ok.mp ho with ⟨dot, rest, hr, hd, rfl, rfl⟩ | ⟨hdot, rfl, rfl⟩
      · rw [bind_eq_ok] at h
        obtain ⟨name, v, hv, h⟩ := h
        split_ifs at h
        · rw [bind_eq_ok] at h
          obtain ⟨_, w, hw, h⟩ := h
          exact ih h
        · exact ih h
      · cases h
        intro k hk
        rcases mem_tightSymbols.mp hk with rfl | rfl | ⟨l, hl, -⟩
        · exact hleft
        · exact hdot
        · exact absurd (l.rank_le) (by omega)

/-- A primary that takes no suffixes leads to the suffixes. -/
theorem Accepts.call {good : Expr → Prop} {ts rest : List Token}
    (h : Accepts Parser.primary good ts rest) :
    Leads Parser.call Parser.suffixes good ts rest := by
  intro s hs
  obtain ⟨e, s', hgood, hreach, hprimary⟩ := h s hs
  refine ⟨e, s', hgood, hreach, fun r hr => eventually_of_succ ?_⟩
  filter_upwards [hprimary, hr] with n h₁ h₂
  unfold Parser.call
  rw [bind_of_ok h₁, h₂]

theorem kind_of_is {t : Token} {k : Symbol} (h : t.is k = true) : t.kind = .symbol k :=
  of_decide_eq_true h

theorem accepts_literal {t : Token} {rest : List Token} {value : Literal}
    (h : ∀ n s, s.rest = t :: rest →
      Parser.primary (n + 1) s = .ok (.literal value) (s.read t rest)) :
    Accepts Parser.primary (SameExpr (.literal value)) [t] rest := by
  intro s hs
  exact ⟨.literal value, s.read t rest, rfl, reaches_read s t rest,
    eventually_of_succ (.of_forall fun n => h n s hs)⟩

theorem accepts_this {t : Token} (h : t.is .thisKw = true) (ref : RefId) (rest : List Token) :
    Accepts Parser.primary (SameExpr (.this ref t)) [t] rest := by
  intro s hs
  refine ⟨.this s.nextRef t, (s.read t rest).take, rfl, (reaches_read s t rest).take,
    eventually_of_succ (.of_forall fun n => ?_)⟩
  unfold Parser.primary
  rw [hs]
  simp only [List.cons_append, List.nil_append, kind_of_is h]
  rfl

theorem accepts_name {t : Token} (h : t.is .identifier = true) (ref : RefId) (rest : List Token) :
    Accepts Parser.primary (SameExpr (.var ref t)) [t] rest := by
  intro s hs
  refine ⟨.var s.nextRef t, (s.read t rest).take, rfl, (reaches_read s t rest).take,
    eventually_of_succ (.of_forall fun n => ?_)⟩
  unfold Parser.primary
  rw [hs]
  simp only [List.cons_append, List.nil_append, kind_of_is h]
  rfl

theorem accepts_super {keyword dot method : Token} (hk : keyword.is .superKw = true)
    (hd : dot.is .dot = true) (hm : method.is .identifier = true) (ref : RefId)
    (rest : List Token) :
    Accepts Parser.primary (SameExpr (.super ref keyword method)) [keyword, dot, method] rest := by
  intro s hs
  have hreach : Reaches s rest (((s.read keyword (dot :: method :: rest)).read dot
      (method :: rest)).read method rest) := (reaches_read s _ _).read.read
  refine ⟨.super s.nextRef keyword method, _, rfl, hreach.take,
    eventually_of_succ (.of_forall fun n => ?_)⟩
  unfold Parser.primary
  rw [hs]
  simp only [List.cons_append, List.nil_append, kind_of_is hk]
  unfold Parser.superAccess
  rw [bind_of_ok (expect_some rfl hd), bind_of_ok (expect_some rfl hm)]
  rfl

theorem accepts_group {ts rest : List Token} {left right : Token} {e : Expr}
    (hl : left.is .leftParen = true) (hr : right.is .rightParen = true)
    (h : Accepts Parser.expression (SameExpr e) ts (right :: rest)) :
    Accepts Parser.primary (SameExpr (.group e)) (left :: (ts ++ [right])) rest := by
  intro s hs
  rw [List.cons_append, List.append_assoc] at hs
  obtain ⟨e', s', hsame, hreach, hinner⟩ := h (s.read left (ts ++ right :: rest)) rfl
  refine ⟨.group e', s'.read right rest, congrArg Expr.group hsame,
    (reaches_read s _ _).trans hreach.read, eventually_of_succ ?_⟩
  filter_upwards [hinner] with n hinner
  unfold Parser.primary
  rw [hs]
  simp only [kind_of_is hl]
  exact (bind_of_ok (p := Parser.expression n) hinner).trans
    (bind_of_ok (p := Parser.expect _ _) (expect_some hreach.rest hr))

/-- `new` leads where its callee does: the callee takes all suffixes, and none is left. -/
theorem leads_new {ts rest : List Token} {keyword : Token} {e : Expr}
    (hk : keyword.is .newKw = true) (h : Leads Parser.call Parser.suffixes (SameExpr e) ts rest) :
    Leads Parser.call Parser.suffixes (SameExpr e) (keyword :: ts) rest := by
  intro s hs
  obtain ⟨e', s', hsame, hreach, hcall⟩ := h (s.read keyword (ts ++ rest)) rfl
  refine ⟨e', s', hsame, (reaches_read s _ _).trans hreach, fun r hr => ?_⟩
  have hprimary : ∀ᶠ n in atTop, Parser.primary n s = r := by
    refine eventually_of_succ ?_
    filter_upwards [hcall r hr] with n hn
    unfold Parser.primary
    rw [hs]
    simp only [List.cons_append, kind_of_is hk]
    exact hn
  refine eventually_of_succ ?_
  cases r with
  | ok x t =>
    obtain ⟨m, hm⟩ := hr.exists
    filter_upwards [hprimary, suffixes_stop x (suffixes_stopped hm)] with n h₁ h₂
    unfold Parser.call
    rw [bind_of_ok h₁, h₂]
  | fail error t =>
    filter_upwards [hprimary] with n h₁
    unfold Parser.call
    rw [bind_of_fail h₁]
  | exhausted =>
    filter_upwards [hprimary] with n h₁
    unfold Parser.call
    rw [bind_of_exhausted h₁]

/-! ### Calls -/

theorem Leads.applyNone {ts rest : List Token} {left right : Token} {e : Expr}
    (hl : left.is .leftParen = true) (hr : right.is .rightParen = true)
    (h : Leads Parser.call Parser.suffixes (SameExpr e) ts ([left, right] ++ rest)) :
    Leads Parser.call Parser.suffixes (SameExpr (.call e right [])) (ts ++ [left, right]) rest := by
  intro s hs
  obtain ⟨e', s', hsame, hreach, hcall⟩ := h s (by rw [hs, List.append_assoc])
  refine ⟨.call e' right [], _, ?_, hreach.read.read, fun r hr' => hcall r (eventually_of_succ ?_)⟩
  · exact congrArg (Expr.call · right []) hsame
  filter_upwards [hr'] with n h₁
  unfold Parser.suffixes
  rw [bind_of_ok (accept_some hreach.rest hl)]
  dsimp only
  rw [bind_of_ok (show Parser.sees .rightParen _ = .ok _ _ from rfl), sees_true rfl hr,
    if_pos rfl, bind_of_ok (show (pure [] : Parser (List Expr)) _ = .ok _ _ from rfl),
    bind_of_ok (expect_some rfl hr)]
  exact h₁

theorem Leads.apply {ts us rest : List Token} {left right : Token} {e : Expr} {es : List Expr}
    (hl : left.is .leftParen = true) (hr : right.is .rightParen = true)
    (h : Leads Parser.call Parser.suffixes (SameExpr e) ts (left :: (us ++ right :: rest)))
    (hargs : Accepts (Parser.arguments · 0)
      (fun es' => Expr.unlabelledAll es' = Expr.unlabelledAll es) us (right :: rest))
    (hus : Without .rightParen (us ++ right :: rest)) :
    Leads Parser.call Parser.suffixes (SameExpr (.call e right es))
      (ts ++ left :: (us ++ [right])) rest := by
  intro s hs
  obtain ⟨e', s₁, hsame, hreach, hcall⟩ := h s (by rw [hs]; simp)
  obtain ⟨es', s₂, hsames, hreach', harguments⟩ := hargs (s₁.read left (us ++ right :: rest)) rfl
  refine ⟨.call e' right es', s₂.read right rest, ?_, (hreach.read.trans hreach').read,
    fun r hr' => hcall r (eventually_of_succ ?_)⟩
  · simp only [SameExpr, Expr.unlabelled] at hsame ⊢
    rw [hsame, hsames]
  filter_upwards [hr', harguments] with n h₁ h₂
  unfold Parser.suffixes
  rw [bind_of_ok (accept_some hreach.rest hl)]
  dsimp only
  rw [bind_of_ok (show Parser.sees .rightParen _ = .ok _ _ from rfl), sees_false hus,
    if_neg Bool.false_ne_true, bind_of_ok h₂, bind_of_ok (expect_some hreach'.rest hr)]
  exact h₁

theorem Leads.get {ts rest : List Token} {dot name : Token} {e : Expr} (hd : dot.is .dot = true)
    (hn : name.is .identifier = true) (hc : name.lexeme ≠ constructorName)
    (h : Leads Parser.call Parser.suffixes (SameExpr e) ts ([dot, name] ++ rest)) :
    Leads Parser.call Parser.suffixes (SameExpr (.get e name)) (ts ++ [dot, name]) rest := by
  intro s hs
  obtain ⟨e', s', hsame, hreach, hcall⟩ := h s (by rw [hs, List.append_assoc])
  refine ⟨.get e' name, _, ?_, hreach.read.read, fun r hr' => hcall r (eventually_of_succ ?_)⟩
  · exact congrArg (Expr.get · name) hsame
  filter_upwards [hr'] with n h₁
  have hparen : Without .leftParen s'.rest := by
    rw [hreach.rest]
    exact without_of_is hd (by decide)
  unfold Parser.suffixes
  rw [bind_of_ok (accept_none hparen)]
  dsimp only
  rw [bind_of_ok (accept_some hreach.rest hd)]
  dsimp only
  rw [bind_of_ok (expect_some rfl hn)]
  have hc' : (name.lexeme == constructorName) = false := by simpa using hc
  rw [hc']
  exact h₁

/-! ### Operators -/

theorem Accepts.operator {ts rest : List Token} {op : Token} {e : Expr}
    (ho : (op.is .bang || op.is .minus) = true)
    (h : Accepts Parser.unary (SameExpr e) ts rest) :
    Accepts Parser.unary (SameExpr (.unary op e)) (op :: ts) rest := by
  intro s hs
  obtain ⟨e', s', hsame, hreach, hunary⟩ := h (s.read op (ts ++ rest)) rfl
  refine ⟨.unary op e', s', congrArg (Expr.unary op) hsame, (reaches_read s _ _).trans hreach,
    eventually_of_succ ?_⟩
  filter_upwards [hunary] with n hn
  unfold Parser.unary
  rw [bind_of_ok (acceptIf_eq_ok.mpr (.inl ⟨op, ts ++ rest, hs, ho, rfl, rfl⟩))]
  dsimp only
  rw [bind_of_ok hn]
  rfl

theorem Leads.unary {good : Expr → Prop} {ts rest : List Token}
    (h : Leads Parser.call Parser.suffixes good ts rest) (hts : Begins .call ts)
    (hstop : Stops .call rest) : Accepts Parser.unary good ts rest := by
  intro s hs
  have hcall := h.accepts fun e s hs => suffixes_stop e (hs ▸ hstop)
  obtain ⟨e', s', hgood, hreach, hn⟩ := hcall s hs
  refine ⟨e', s', hgood, hreach, eventually_of_succ ?_⟩
  have hhead : HeadIn operandFirst s.rest := hs ▸ (hts.append rfl).1
  have hnone : Parser.acceptIf (fun t => t.is .bang || t.is .minus) s = .ok none s := by
    refine acceptIf_eq_ok.mpr (.inr ⟨fun t ht => ?_, rfl, rfl⟩)
    rw [hhead.without (k := .bang) (by decide) t ht, hhead.without (k := .minus) (by decide) t ht]
    rfl
  filter_upwards [hn] with n hn
  unfold Parser.unary
  rw [bind_of_ok hnone]
  exact hn

theorem Accepts.tighter {good : Expr → Prop} {ts rest : List Token} {l l' : Level}
    (hl : l.tighter = some l') (h : Accepts (Parser.level · l') good ts rest) :
    Accepts (Parser.operand · l) good ts rest := by
  intro s hs
  obtain ⟨e', s', hgood, hreach, hn⟩ := h s hs
  refine ⟨e', s', hgood, hreach, eventually_of_succ ?_⟩
  filter_upwards [hn] with n hn
  unfold Parser.operand
  rw [hl]
  exact hn

theorem Accepts.tightest {good : Expr → Prop} {ts rest : List Token} {l : Level}
    (hl : l.tighter = none) (h : Accepts Parser.unary good ts rest) :
    Accepts (Parser.operand · l) good ts rest := by
  intro s hs
  obtain ⟨e', s', hgood, hreach, hn⟩ := h s hs
  refine ⟨e', s', hgood, hreach, eventually_of_succ ?_⟩
  filter_upwards [hn] with n hn
  unfold Parser.operand
  rw [hl]
  exact hn

theorem Accepts.single {good : Expr → Prop} {ts rest : List Token} {l : Level}
    (h : Accepts (Parser.operand · l) good ts rest) :
    Leads (Parser.level · l) (Parser.more · l) good ts rest := by
  intro s hs
  obtain ⟨e', s', hgood, hreach, hn⟩ := h s hs
  refine ⟨e', s', hgood, hreach, fun r hr => eventually_of_succ ?_⟩
  filter_upwards [hn, hr] with n h₁ h₂
  unfold Parser.level
  rw [bind_of_ok h₁, h₂]

theorem Leads.level {good : Expr → Prop} {ts rest : List Token} {l : Level}
    (h : Leads (Parser.level · l) (Parser.more · l) good ts rest)
    (hstop : Stops (.level l) rest) : Accepts (Parser.level · l) good ts rest :=
  h.accepts fun e _ hs => more_stop l e (hs ▸ hstop)

theorem join_unlabelled (l : Level) (left : Expr) (op : Token) (right : Expr) :
    (l.join left op right).unlabelled = l.join left.unlabelled op right.unlabelled := by
  cases l <;> rfl

theorem Leads.join {ts us rest : List Token} {l : Level} {op : Token} {left right : Expr}
    (ho : l.operators.any op.is = true)
    (h : Leads (Parser.level · l) (Parser.more · l) (SameExpr left) ts (op :: (us ++ rest)))
    (hr : Accepts (Parser.operand · l) (SameExpr right) us rest) :
    Leads (Parser.level · l) (Parser.more · l) (SameExpr (l.join left op right))
      (ts ++ op :: us) rest := by
  intro s hs
  obtain ⟨left', s₁, hsame, hreach, hlevel⟩ := h s (by rw [hs]; simp)
  obtain ⟨right', s₂, hsame', hreach', hoperand⟩ := hr (s₁.read op (us ++ rest)) rfl
  refine ⟨l.join left' op right', s₂, ?_, hreach.read.trans hreach',
    fun r hr => hlevel r (eventually_of_succ ?_)⟩
  · unfold SameExpr at hsame hsame' ⊢
    rw [join_unlabelled, join_unlabelled, hsame, hsame']
  filter_upwards [hoperand, hr] with n h₁ h₂
  unfold Parser.more
  rw [bind_of_ok (acceptIf_eq_ok.mpr (.inl ⟨op, _, hreach.rest, ho, rfl, rfl⟩))]
  dsimp only
  rw [bind_of_ok h₁, h₂]

/-- A call is an expression of the loosest level, if no operator follows. -/
theorem Leads.loosest {good : Expr → Prop} {ts rest : List Token}
    (h : Leads Parser.call Parser.suffixes good ts rest) (hts : Begins .call ts)
    (hstop : Stops (.level .or) rest) : Accepts (Parser.level · .or) good ts rest := by
  have stops (l : Level) : Stops (.level l) rest :=
    hstop.mono (tightSymbols_mono (Nat.zero_le l.rank))
  have unary := h.unary hts (hstop.mono (tightSymbols_mono (Nat.zero_le 6)))
  have factor := (unary.tightest (l := .factor) rfl).single.level (stops _)
  have term := (factor.tighter (l := .term) rfl).single.level (stops _)
  have comparison := (term.tighter (l := .comparison) rfl).single.level (stops _)
  have equality := (comparison.tighter (l := .equality) rfl).single.level (stops _)
  have and := (equality.tighter (l := .and) rfl).single.level (stops _)
  exact (and.tighter (l := .or) rfl).single.level (stops _)

theorem stops_operator {l : Level} {op : Token} {rest : List Token}
    (ho : l.operators.any op.is = true) : Stops (.operand l) (op :: rest) := by
  obtain ⟨k, hk, ht⟩ := List.any_eq_true.mp ho
  refine stops_of_is ht ?_
  clear ht
  revert k
  cases l <;> decide

/-! ### Assignments and arguments -/

theorem Accepts.plain {ts rest : List Token} {e : Expr}
    (h : Accepts (Parser.level · .or) (SameExpr e) ts rest) (hrest : Without .equal rest) :
    Accepts Parser.expression (SameExpr e) ts rest := by
  intro s hs
  obtain ⟨e', s', hsame, hreach, hn⟩ := h s hs
  refine ⟨e', s', hsame, hreach, eventually_of_succ ?_⟩
  filter_upwards [hn] with n hn
  unfold Parser.expression
  rw [bind_of_ok hn, bind_of_ok (accept_none (hreach.rest ▸ hrest))]
  rfl

theorem Accepts.assignName {ts us rest : List Token} {eq name : Token} {r : RefId} {value : Expr}
    (he : eq.is .equal = true) (ref : RefId)
    (h : Accepts (Parser.level · .or) (SameExpr (.var r name)) ts (eq :: (us ++ rest)))
    (hv : Accepts Parser.expression (SameExpr value) us rest) :
    Accepts Parser.expression (SameExpr (.assign ref name value)) (ts ++ eq :: us) rest := by
  intro s hs
  obtain ⟨target, s₁, hsame, hreach, hlevel⟩ := h s (by rw [hs]; simp)
  obtain ⟨value', s₂, hsame', hreach', hvalue⟩ := hv (s₁.read eq (us ++ rest)) rfl
  obtain ⟨r', rfl⟩ : ∃ r', target = .var r' name := by
    cases target <;> simp_all [SameExpr, Expr.unlabelled]
  refine ⟨.assign s₂.nextRef name value', s₂.take, congrArg (Expr.assign 0 name) hsame',
    (hreach.read.trans hreach').take, eventually_of_succ ?_⟩
  filter_upwards [hlevel, hvalue] with n h₁ h₂
  unfold Parser.expression
  rw [bind_of_ok h₁, bind_of_ok (accept_some hreach.rest he)]
  dsimp only
  rw [bind_of_ok h₂]
  rfl

theorem Accepts.assignProperty {ts us rest : List Token} {eq name : Token} {object value : Expr}
    (he : eq.is .equal = true)
    (h : Accepts (Parser.level · .or) (SameExpr (.get object name)) ts (eq :: (us ++ rest)))
    (hv : Accepts Parser.expression (SameExpr value) us rest) :
    Accepts Parser.expression (SameExpr (.set object name value)) (ts ++ eq :: us) rest := by
  intro s hs
  obtain ⟨target, s₁, hsame, hreach, hlevel⟩ := h s (by rw [hs]; simp)
  obtain ⟨value', s₂, hsame', hreach', hvalue⟩ := hv (s₁.read eq (us ++ rest)) rfl
  obtain ⟨object', rfl, hobject⟩ :
      ∃ object', target = .get object' name ∧ object'.unlabelled = object.unlabelled := by
    cases target <;> simp_all [SameExpr, Expr.unlabelled]
  refine ⟨.set object' name value', s₂, ?_, hreach.read.trans hreach', eventually_of_succ ?_⟩
  · unfold SameExpr at hsame' ⊢
    simp only [Expr.unlabelled, hobject, hsame']
  filter_upwards [hlevel, hvalue] with n h₁ h₂
  unfold Parser.expression
  rw [bind_of_ok h₁, bind_of_ok (accept_some hreach.rest he)]
  dsimp only
  rw [bind_of_ok h₂]
  rfl

/-- The same expressions up to identities. -/
def SameExprs (es es' : List Expr) : Prop := Expr.unlabelledAll es' = Expr.unlabelledAll es

theorem Accepts.lastArgument {ts rest : List Token} {c : Nat} {e : Expr}
    (hc : c < Parser.maxArity) (h : Accepts Parser.expression (SameExpr e) ts rest)
    (hrest : Without .comma rest) : Accepts (Parser.arguments · c) (SameExprs [e]) ts rest := by
  intro s hs
  obtain ⟨e', s', hsame, hreach, hexpr⟩ := h s hs
  refine ⟨[e'], s', congrArg ([·]) hsame, hreach, eventually_of_succ ?_⟩
  filter_upwards [hexpr] with n hn
  unfold Parser.arguments
  rw [if_neg (by omega)]
  refine (bind_of_ok hn).trans ?_
  rw [bind_of_ok (accept_none (hreach.rest ▸ hrest))]
  rfl

theorem Accepts.argument {ts us rest : List Token} {comma : Token} {c : Nat} {e : Expr}
    {es : List Expr} (hc : c < Parser.maxArity) (hcomma : comma.is .comma = true)
    (h : Accepts Parser.expression (SameExpr e) ts (comma :: (us ++ rest)))
    (hargs : Accepts (Parser.arguments · (c + 1)) (SameExprs es) us rest) :
    Accepts (Parser.arguments · c) (SameExprs (e :: es)) (ts ++ comma :: us) rest := by
  intro s hs
  obtain ⟨e', s₁, hsame, hreach, hexpr⟩ := h s (by rw [hs]; simp)
  obtain ⟨es', s₂, hsames, hreach', hrest⟩ := hargs (s₁.read comma (us ++ rest)) rfl
  refine ⟨e' :: es', s₂, ?_, hreach.read.trans hreach', eventually_of_succ ?_⟩
  · unfold SameExpr at hsame
    unfold SameExprs at hsames ⊢
    simp only [Expr.unlabelledAll, hsame, hsames]
  filter_upwards [hexpr, hrest] with n h₁ h₂
  unfold Parser.arguments
  rw [if_neg (by omega)]
  refine (bind_of_ok h₁).trans ?_
  rw [bind_of_ok (accept_some hreach.rest hcomma)]
  dsimp only
  rw [bind_of_ok h₂]
  rfl

/-- The same clause up to identities. -/
def SameClause (o o' : Option Expr) : Prop := o'.map Expr.unlabelled = o.map Expr.unlabelled

theorem accepts_noClause {k : Symbol} {t : Token} {rest : List Token} (ht : t.is k = true) :
    Accepts (Parser.expressionUnless · k) (SameClause none) [] (t :: rest) := by
  intro s hs
  refine ⟨none, s, rfl, ⟨hs, rfl⟩, .of_forall fun n => ?_⟩
  show Parser.expressionUnless n k s = _
  unfold Parser.expressionUnless
  rw [bind_of_ok (show Parser.sees k s = .ok _ _ from rfl), sees_true hs ht]
  rfl

theorem Accepts.someClause {k : Symbol} {ts rest : List Token} {e : Expr}
    (h : Accepts Parser.expression (SameExpr e) ts rest) (hts : Begins .expression ts)
    (hk : k ∉ expressionFirst) :
    Accepts (Parser.expressionUnless · k) (SameClause (some e)) ts rest := by
  intro s hs
  obtain ⟨e', s', hsame, hreach, hn⟩ := h s hs
  refine ⟨some e', s', congrArg some hsame, hreach, ?_⟩
  have hhead : Without k s.rest := hs ▸ (hts.append rfl).1.without hk
  filter_upwards [hn] with n hn
  unfold Parser.expressionUnless
  rw [bind_of_ok (show Parser.sees k s = .ok _ _ from rfl), sees_false hhead,
    if_neg Bool.false_ne_true, bind_of_ok hn]
  rfl

end Scriptlet.Grammar
