import Scriptlet.Proofs.Grammar.Soundness

/-!
# First and following tokens

One token of lookahead decides every choice of the parser. `Rule.first` lists the symbols with which
the tokens of a rule may begin, and `Rule.continues` says which symbols would make the parser go on
after them: an argument list, a property or an operator at least as tight as the rule, for an
expression also an equals sign. Number and string tokens are no symbols and occur only at the
beginning of a `primary`.

Results:
* `Derives.begins`: what derives from a rule begins with one of its first symbols or a literal.
* `stops_of_is`: a symbol that does not continue a rule ends it.
-/

namespace Scriptlet.Grammar

/-! ## First tokens -/

/-- The symbols with which an operand may begin. -/
def operandFirst : List Symbol :=
  [.falseKw, .trueKw, .nullKw, .undefinedKw, .superKw, .thisKw, .identifier, .leftParen, .newKw]

/-- The symbols with which an expression may begin. -/
def expressionFirst : List Symbol := .bang :: .minus :: operandFirst

/-- The symbols with which a statement may begin. -/
def statementFirst : List Symbol :=
  .forKw :: .ifKw :: .returnKw :: .whileKw :: .leftBrace :: expressionFirst

/-- The symbols with which the tokens of a rule may begin. -/
def Rule.first : Rule → List Symbol
  | call | primary => operandFirst
  | expression | level _ | operand _ | unary | arguments | clause | expressionStatement =>
    expressionFirst
  | letDeclaration => [.letKw]
  | forInit => .semicolon :: .letKw :: expressionFirst
  | function | methods => [.identifier]
  | block => [.leftBrace]
  | statement _ => statementFirst
  | declaration | declarations => .classKw :: .functionKw :: .letKw :: statementFirst

/-- The rules that derive no token at all. -/
def Rule.nullable : Rule → Bool
  | clause | declarations | methods => true
  | _ => false

/-- The tokens begin with one of the symbols, if with a symbol at all. -/
def HeadIn (ks : List Symbol) (ts : List Token) : Prop :=
  ∀ t ∈ ts.head?, ∀ k, t.is k = true → k ∈ ks

theorem headIn_cons {ks : List Symbol} {t : Token} {ts : List Token} :
    HeadIn ks (t :: ts) ↔ ∀ k, t.is k = true → k ∈ ks := by
  simp [HeadIn]

theorem HeadIn.mono {ks ks' : List Symbol} {ts : List Token} (h : HeadIn ks ts) (hks : ks ⊆ ks') :
    HeadIn ks' ts := fun t ht k hk => hks (h t ht k hk)

theorem HeadIn.append {ks : List Symbol} {ts us : List Token} (h : HeadIn ks ts) (hts : ts ≠ []) :
    HeadIn ks (ts ++ us) := by
  cases ts with
  | nil => exact absurd rfl hts
  | cons t ts => exact headIn_cons.mpr (headIn_cons.mp h)

theorem is_unique {t : Token} {k k' : Symbol} (h : t.is k = true) (h' : t.is k' = true) :
    k' = k := by
  unfold Token.is at h h'
  rw [decide_eq_true_iff] at h h'
  exact TokenKind.symbol.inj (h'.symm.trans h)

theorem headIn_of_is {ks : List Symbol} {t : Token} {ts : List Token} {k : Symbol}
    (h : t.is k = true) (hk : k ∈ ks) : HeadIn ks (t :: ts) :=
  headIn_cons.mpr fun _ h' => is_unique h h' ▸ hk

theorem headIn_of_kind {ks : List Symbol} {t : Token} {ts : List Token}
    (h : ∀ k, t.kind ≠ .symbol k) : HeadIn ks (t :: ts) := by
  refine headIn_cons.mpr fun k hk => ?_
  unfold Token.is at hk
  exact absurd (of_decide_eq_true hk) (h k)

theorem HeadIn.without {ks : List Symbol} {ts : List Token} (h : HeadIn ks ts) {k : Symbol}
    (hk : k ∉ ks) : Without k ts := by
  intro t ht
  cases hk' : t.is k with
  | false => rfl
  | true => exact absurd (h t ht k hk') hk

theorem without_of_is {t : Token} {ts : List Token} {k k' : Symbol} (h : t.is k = true)
    (hk : k ≠ k') : Without k' (t :: ts) := by
  rintro _ ⟨⟩
  exact Token.is_ne h hk

/-- What derives from a rule begins as it should. -/
def Begins (r : Rule) (ts : List Token) : Prop :=
  HeadIn r.first ts ∧ (r.nullable = false → ts ≠ [])

theorem begins_of_is {r : Rule} {t : Token} {ts : List Token} {k : Symbol} (h : t.is k = true)
    (hk : k ∈ r.first) : Begins r (t :: ts) :=
  ⟨headIn_of_is h hk, fun _ => List.cons_ne_nil _ _⟩

theorem Begins.append {r : Rule} {ts us : List Token} (h : Begins r ts)
    (hr : r.nullable = false) : Begins r (ts ++ us) :=
  ⟨h.1.append (h.2 hr), fun _ => List.append_ne_nil_of_left_ne_nil (h.2 hr) _⟩

theorem Begins.mono {r r' : Rule} {ts : List Token} (h : Begins r ts) (hr : r.nullable = false)
    (hfirst : r.first ⊆ r'.first) : Begins r' ts :=
  ⟨h.1.mono hfirst, fun _ => h.2 hr⟩

/-- **A derivation begins with one of the first symbols of its rule.** -/
theorem Derives.begins {r : Rule} {ts : List Token} {t : r.Tree} (h : Derives r ts t) :
    Begins r ts := by
  induction h with
  | assignName _ _ _ _ ih _ => exact (ih.mono rfl (by decide)).append rfl
  | assignProperty _ _ _ ih _ => exact (ih.mono rfl (by decide)).append rfl
  | loosest _ ih => exact ih
  | join _ _ _ ih _ => exact ih.append rfl
  | single _ ih => exact ih
  | tighter _ _ ih => exact ih
  | tightest _ ih => exact ih
  | operator ho _ _ =>
    rcases Bool.or_eq_true_iff.mp ho with h | h <;> exact begins_of_is h (by decide)
  | bare _ ih => exact ih.mono rfl (by decide)
  | applyNone _ _ _ ih => exact ih.append rfl
  | apply _ _ _ _ _ ih _ => exact ih.append rfl
  | get _ _ _ _ ih => exact ih.append rfl
  | plain _ ih => exact ih
  | lastArgument _ ih => exact ih
  | argument _ _ _ ih _ => exact Begins.append (r := .arguments) ih rfl
  | number h => exact ⟨headIn_of_kind fun k hk => by simp [h] at hk, fun _ => by simp⟩
  | string h => exact ⟨headIn_of_kind fun k hk => by simp [h] at hk, fun _ => by simp⟩
  | falsity h => exact begins_of_is h (by decide)
  | truth h => exact begins_of_is h (by decide)
  | null h => exact begins_of_is h (by decide)
  | undefined h => exact begins_of_is h (by decide)
  | super _ h _ _ => exact begins_of_is h (by decide)
  | this _ h => exact begins_of_is h (by decide)
  | name _ h => exact begins_of_is h (by decide)
  | group h _ _ _ => exact begins_of_is h (by decide)
  | new h _ _ => exact begins_of_is h (by decide)
  | noClause => exact ⟨by simp [HeadIn], nofun⟩
  | someClause _ ih => exact ⟨ih.1, nofun⟩
  | noDeclaration => exact ⟨by simp [HeadIn], nofun⟩
  | moreDeclarations _ _ ih _ => exact ⟨(ih.append rfl).1, nofun⟩
  | classDeclaration h => exact begins_of_is h (by decide)
  | functionDeclaration h _ _ => exact begins_of_is h (by decide)
  | variableDeclaration _ ih => exact ih.mono rfl (by decide)
  | statement _ ih => exact ih.mono rfl fun _ hk => .tail _ (.tail _ (.tail _ hk))
  | declare h _ _ => exact begins_of_is h (by decide)
  | declareInit h _ _ _ _ _ => exact begins_of_is h (by decide)
  | evaluate _ _ ih => exact Begins.append (r := .expressionStatement) ih rfl
  | initNone h => exact begins_of_is h (by decide)
  | initLet _ ih => exact ih.mono rfl (by decide)
  | initExpression _ ih => exact ih.mono rfl (by decide)
  | function h _ _ _ _ _ => exact begins_of_is h (by decide)
  | noMethod => exact ⟨by simp [HeadIn], nofun⟩
  | moreMethods _ _ ih _ => exact ⟨(ih.append rfl).1, nofun⟩
  | block h _ _ _ => exact begins_of_is h (by decide)
  | exprStatement _ ih => exact ih.mono rfl (by decide)
  | forStatement h => exact begins_of_is h (show Symbol.forKw ∈ statementFirst by decide)
  | ifThen h => exact begins_of_is h (by decide)
  | ifThenElse h => exact begins_of_is h (show Symbol.ifKw ∈ statementFirst by decide)
  | returnStatement h _ _ _ => exact begins_of_is h (by decide)
  | whileStatement h => exact begins_of_is h (show Symbol.whileKw ∈ statementFirst by decide)
  | blockStatement _ ih => exact ih.mono rfl (by decide)

/-! ## Following tokens -/

/-- The operators at least as tight as the rank `i`, and what follows a callee. -/
def tightSymbols (i : Nat) : List Symbol :=
  .leftParen :: .dot ::
    ([.or, .and, .equality, .comparison, .term, .factor].filter (i ≤ Level.rank ·)).flatMap
      Level.operators

/-- The symbols that the parser would still take after the tokens of a rule. -/
def Rule.continues : Rule → List Symbol
  | expression | clause => .equal :: tightSymbols 0
  | level l => tightSymbols l.rank
  | operand l => tightSymbols (l.rank + 1)
  | unary | call | primary => tightSymbols 6
  | arguments => .comma :: .equal :: tightSymbols 0
  | declaration | statement true => [.elseKw]
  | _ => []

/-- The tokens after those of a rule do not continue it. -/
def Stops (r : Rule) (rest : List Token) : Prop := ∀ k ∈ r.continues, Without k rest

theorem stops_of_is {r : Rule} {t : Token} {rest : List Token} {k : Symbol} (h : t.is k = true)
    (hk : k ∉ r.continues) : Stops r (t :: rest) := fun _ hk' =>
  without_of_is h fun e => hk (e ▸ hk')

/-- Nothing continues a statement that does not dangle. -/
theorem stops_closed (rest : List Token) : Stops (.statement false) rest := List.forall_mem_nil _

theorem Stops.mono {r r' : Rule} {rest : List Token} (h : Stops r rest)
    (hr : r'.continues ⊆ r.continues) : Stops r' rest := fun k hk => h k (hr hk)

theorem mem_tightSymbols {i : Nat} {k : Symbol} :
    k ∈ tightSymbols i ↔
      k = .leftParen ∨ k = .dot ∨ ∃ l : Level, i ≤ l.rank ∧ k ∈ l.operators := by
  have hall (l : Level) : l ∈ [Level.or, .and, .equality, .comparison, .term, .factor] := by
    cases l <;> decide
  simp [tightSymbols, hall]

theorem tightSymbols_mono {i j : Nat} (h : i ≤ j) : tightSymbols j ⊆ tightSymbols i := by
  intro k hk
  rw [mem_tightSymbols] at hk ⊢
  rcases hk with hk | hk | ⟨l, hl, hk⟩
  · exact .inl hk
  · exact .inr (.inl hk)
  · exact .inr (.inr ⟨l, h.trans hl, hk⟩)

end Scriptlet.Grammar
