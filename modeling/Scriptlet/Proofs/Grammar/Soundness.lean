import Scriptlet.Proofs.Grammar.Derivation
import Scriptlet.Proofs.Parser.Termination

/-!
# What the parser accepts is in the grammar

`Reads p D`: whenever the action `p` succeeds without an error being noted, then or before, the
tokens it has read, its value and the tokens left satisfy `D`. Every rule reads what its counterpart
of the grammar derives. The argument goes backwards from a state without errors: the last part of a
rule reads only if it begins in such a state, so the part before it ended in one.

An assignment is parsed by looking at a left side that has been parsed as something looser; it
derives because an expression that is a variable or a property cannot be anything looser than a
`call` (`Derives.target`). A dangling statement is followed by no `else`, since it would have taken
it.

Results: `soundExpressions`, `soundStatements`, `program_of_parse`.
-/

namespace Scriptlet.Grammar

open Scriptlet.Parser (State Result bind_of_ok bind_eq_ok bind_eq_fail map_eq_ok)

/-! ## Left sides of assignments -/

/-- What can be assigned to. -/
def IsTarget : Expr → Prop
  | .var _ _ => True
  | .get _ _ => True
  | _ => False

/-- A target that derives from one of the looser rules for expressions is a `call`. -/
def TargetIsCall : (r : Rule) → List Token → r.Tree → Prop
  | .level _, ts, e => IsTarget e → Derives .call ts e
  | .operand _, ts, e => IsTarget e → Derives .call ts e
  | .unary, ts, e => IsTarget e → Derives .call ts e
  | _, _, _ => True

theorem Derives.target {r : Rule} {ts : List Token} {t : r.Tree} (h : Derives r ts t) :
    TargetIsCall r ts t := by
  induction h with
  | join _ ho _ => cases ho <;> exact fun h => h.elim
  | single _ ih => exact ih
  | tighter _ _ ih => exact ih
  | tightest _ ih => exact ih
  | operator => exact fun h => h.elim
  | bare h => exact fun _ => h
  | _ => trivial

/-! ## Reading -/

/-- **What a successful action has read**: if no error is noted at its end, there was none before,
and the tokens read, the value and the tokens left are as `D` says. -/
def Reads {α : Type} (p : Parser α) (D : List Token → α → List Token → Prop) : Prop :=
  ∀ ⦃s : State⦄ ⦃a : α⦄ ⦃s' : State⦄, p s = .ok a s' → s'.errors = #[] →
    s.errors = #[] ∧ ∃ ts, s.rest = ts ++ s'.rest ∧ D ts a s'.rest

theorem acceptIf_eq_ok {q : Token → Bool} {s s' : State} {o : Option Token} :
    Parser.acceptIf q s = .ok o s' ↔
      (∃ t rest, s.rest = t :: rest ∧ q t = true ∧ o = some t ∧ s' = s.read t rest) ∨
        (∀ t ∈ s.rest.head?, q t = false) ∧ o = none ∧ s' = s := by
  constructor
  · intro h
    cases hs : s.rest with
    | nil =>
      rw [Parser.acceptIf_nil hs] at h
      cases h
      exact .inr ⟨fun t ht => by simp at ht, rfl, rfl⟩
    | cons t rest =>
      rw [Parser.acceptIf_cons hs] at h
      cases hq : q t with
      | true =>
        rw [hq] at h
        cases h
        exact .inl ⟨t, rest, rfl, hq, rfl, rfl⟩
      | false =>
        rw [hq] at h
        cases h
        exact .inr ⟨fun u hu => by simp at hu; exact hu ▸ hq, rfl, rfl⟩
  · rintro (⟨t, rest, hs, hq, rfl, rfl⟩ | ⟨hq, rfl, rfl⟩)
    · rw [Parser.acceptIf_cons hs, if_pos hq]
    · cases hs : s'.rest with
      | nil => exact Parser.acceptIf_nil hs
      | cons t rest =>
        rw [Parser.acceptIf_cons hs, hq t (by rw [hs]; rfl)]
        rfl

theorem expect_eq_ok {k : Symbol} {f : SyntaxFault} {s s' : State} {t : Token} :
    Parser.expect k f s = .ok t s' ↔
      ∃ rest, s.rest = t :: rest ∧ t.is k = true ∧ s' = s.read t rest := by
  constructor
  · intro h
    rcases Parser.expect_cases k f s with ⟨e, he⟩ | ⟨u, rest, hs, hu, he⟩
    · rw [he] at h; cases h
    · rw [he] at h
      cases h
      exact ⟨rest, hs, hu, rfl⟩
  · rintro ⟨rest, hs, ht, rfl⟩
    exact Parser.bind_of_ok (p := Parser.accept k) (by
      unfold Parser.accept
      rw [Parser.acceptIf_cons hs, if_pos ht])

theorem note_errors_ne (s : State) (e : SyntaxError) : (s.note e).errors ≠ #[] := by
  simp [State.note]

theorem reads_exhausted {α : Type} (D : List Token → α → List Token → Prop) :
    Reads Parser.exhausted D := fun _ _ _ h => nomatch h

/-- A check that notes an error before the action: if none is noted, there was nothing to note. -/
theorem Reads.checked {α : Type} {c : Prop} [Decidable c] {o : Parser Unit} {p : Parser α}
    {D : List Token → α → List Token → Prop} (ho : ∀ s, ∃ e, o s = .ok () (s.note e))
    (hp : Reads p fun ts a rest => ¬ c → D ts a rest) :
    Reads (if c then o >>= fun _ => p else p) D := by
  intro s a s' h he
  by_cases hc : c
  · obtain ⟨e, hnote⟩ := ho s
    rw [if_pos hc, bind_of_ok hnote] at h
    exact absurd (hp h he).1 (note_errors_ne s e)
  · rw [if_neg hc] at h
    obtain ⟨he₀, ts, hts, hd⟩ := hp h he
    exact ⟨he₀, ts, hts, hd hc⟩

/-! ## Expressions -/

/-- Every rule for expressions reads what it derives, if it leaves a token: where none is left, a
literal may have been read twice. -/
structure SoundExpressions (n : Nat) : Prop where
  expression : Reads (Parser.expression n) fun ts e rest => rest ≠ [] → Derives .expression ts e
  level (l : Level) : Reads (Parser.level n l) fun ts e rest => rest ≠ [] → Derives (.level l) ts e
  operand (l : Level) : Reads (Parser.operand n l) fun ts e rest =>
    rest ≠ [] → Derives (.operand l) ts e
  more (l : Level) (left : Expr) : Reads (Parser.more n l left) fun us e rest =>
    rest ≠ [] → ∀ ts, Derives (.level l) ts left → Derives (.level l) (ts ++ us) e
  unary : Reads (Parser.unary n) fun ts e rest => rest ≠ [] → Derives .unary ts e
  call : Reads (Parser.call n) fun ts e rest => rest ≠ [] → Derives .call ts e
  suffixes (e : Expr) : Reads (Parser.suffixes n e) fun us e' rest =>
    rest ≠ [] → ∀ ts, Derives .call ts e → Derives .call (ts ++ us) e'
  arguments (c : Nat) : Reads (Parser.arguments n c) fun ts es rest =>
    rest ≠ [] → Derives .arguments ts es ∧ c + es.length ≤ Parser.maxArity
  primary : Reads (Parser.primary n) fun ts e rest => rest ≠ [] → Derives .primary ts e

/-- A token that has been read was there before. -/
theorem ne_nil_of_rest {s : State} {t : Token} {rest : List Token} (h : s.rest = t :: rest) :
    s.rest ≠ [] := by
  rw [h]
  exact List.cons_ne_nil t rest

theorem ne_nil_of_append {s s' : State} {ts : List Token} (h : s.rest = ts ++ s'.rest)
    (hne : s'.rest ≠ []) : s.rest ≠ [] := by
  rw [h]
  exact List.append_ne_nil_of_right_ne_nil ts hne

theorem reads_expression {n : Nat} (ih : SoundExpressions n) :
    Reads (Parser.expression (n + 1)) fun ts e rest => rest ≠ [] → Derives .expression ts e := by
  intro s e s' h he
  unfold Parser.expression at h
  rw [bind_eq_ok] at h
  obtain ⟨target, t, ht, h⟩ := h
  rw [bind_eq_ok] at h
  obtain ⟨o, u, ho, h⟩ := h
  rcases acceptIf_eq_ok.mp ho with ⟨eq, rest, hr, heq, rfl, rfl⟩ | ⟨-, rfl, rfl⟩
  · rw [bind_eq_ok] at h
    obtain ⟨value, v, hv, h⟩ := h
    -- Everything but a variable or a property is reported.
    have hcall (hq : v.errors = #[]) : ∃ ts us, s.rest = ts ++ eq :: (us ++ v.rest) ∧
        s.errors = #[] ∧ (v.rest ≠ [] → Derives .expression us value) ∧
          (IsTarget target → Derives .call ts target) := by
      obtain ⟨he₁, us, hus, hd₁⟩ := ih.expression hv hq
      obtain ⟨he₀, ts, hts, hd₀⟩ := ih.level _ ht he₁
      refine ⟨ts, us, ?_, he₀, hd₁, (hd₀ (ne_nil_of_rest hr)).target⟩
      rw [hts, hr]
      exact congrArg (ts ++ eq :: ·) hus
    cases target
    case var ref name =>
      rw [bind_eq_ok] at h
      obtain ⟨ref', w, hw, h⟩ := h
      cases hw
      cases h
      obtain ⟨ts, us, hts, he₀, hd, htarget⟩ := hcall he
      exact ⟨he₀, ts ++ eq :: us, by rw [hts]; simp, fun hne =>
        .assignName _ (htarget trivial) heq (hd hne)⟩
    case get object name =>
      cases h
      obtain ⟨ts, us, hts, he₀, hd, htarget⟩ := hcall he
      exact ⟨he₀, ts ++ eq :: us, by rw [hts]; simp, fun hne =>
        .assignProperty (htarget trivial) heq (hd hne)⟩
    all_goals
      rw [bind_eq_ok] at h
      obtain ⟨_, w, hw, h⟩ := h
      cases hw
      cases h
      exact absurd he (note_errors_ne v _)
  · cases h
    obtain ⟨he₀, ts, hts, hd⟩ := ih.level _ ht he
    exact ⟨he₀, ts, hts, fun hne => .loosest (hd hne)⟩

theorem reads_more {n : Nat} (ih : SoundExpressions n) (l : Level) (left : Expr) :
    Reads (Parser.more (n + 1) l left) fun us e rest =>
      rest ≠ [] → ∀ ts, Derives (.level l) ts left → Derives (.level l) (ts ++ us) e := by
  intro s e s' h he
  unfold Parser.more at h
  rw [bind_eq_ok] at h
  obtain ⟨o, t, ho, h⟩ := h
  rcases acceptIf_eq_ok.mp ho with ⟨op, rest, hr, hop, rfl, rfl⟩ | ⟨-, rfl, rfl⟩
  · rw [bind_eq_ok] at h
    obtain ⟨right, u, hu, h⟩ := h
    obtain ⟨he₁, vs, hvs, hmore⟩ := ih.more l _ h he
    obtain ⟨he₀, us, hus, hd⟩ := ih.operand l hu he₁
    refine ⟨he₀, op :: us ++ vs, ?_, fun hne ts hl => ?_⟩
    · rw [hr]
      simp only [State.read] at hus
      rw [hus, hvs]
      simp
    · have hjoins : Joins left op right l (l.join left op right) := joins_iff.mpr ⟨hop, rfl⟩
      simpa using hmore hne _ (.join hl hjoins (hd (ne_nil_of_append hvs hne)))
  · cases h
    exact ⟨he, [], rfl, fun _ ts hl => by simpa using hl⟩

theorem reads_suffixes {n : Nat} (ih : SoundExpressions n) (e : Expr) :
    Reads (Parser.suffixes (n + 1) e) fun us e' rest =>
      rest ≠ [] → ∀ ts, Derives .call ts e → Derives .call (ts ++ us) e' := by
  intro s e' s' h he
  unfold Parser.suffixes at h
  rw [bind_eq_ok] at h
  obtain ⟨o, t, ho, h⟩ := h
  rcases acceptIf_eq_ok.mp ho with ⟨left, rest, hr, hl, rfl, rfl⟩ | ⟨-, rfl, rfl⟩
  · rw [bind_eq_ok] at h
    obtain ⟨empty, u, hu, h⟩ := h
    cases hu
    -- The arguments up to their closing parenthesis, and what follows.
    cases hempty : (s.read left rest).sees .rightParen with
    | true =>
      rw [hempty, if_pos rfl, bind_eq_ok] at h
      obtain ⟨_, u, hu, h⟩ := h
      cases hu
      rw [bind_eq_ok] at h
      obtain ⟨right, v, hv, h⟩ := h
      obtain ⟨rest', hr', hright, rfl⟩ := expect_eq_ok.mp hv
      obtain ⟨he₀, vs, hvs, hsuffix⟩ := ih.suffixes _ h he
      refine ⟨he₀, left :: right :: vs, ?_, fun hne ts hc => ?_⟩
      · rw [hr]
        simp only [State.read] at hr' hvs
        rw [hr', hvs]
        simp
      · simpa using hsuffix hne _ (Derives.applyNone hc hl hright)
    | false =>
      rw [hempty, if_neg Bool.false_ne_true, bind_eq_ok] at h
      obtain ⟨args, u, hu, h⟩ := h
      rw [bind_eq_ok] at h
      obtain ⟨right, v, hv, h⟩ := h
      obtain ⟨rest', hr', hright, rfl⟩ := expect_eq_ok.mp hv
      obtain ⟨he₁, vs, hvs, hsuffix⟩ := ih.suffixes _ h he
      obtain ⟨he₀, us, hus, hargs⟩ := ih.arguments 0 hu he₁
      obtain ⟨hargs, hlen⟩ := hargs (ne_nil_of_rest hr')
      refine ⟨he₀, left :: (us ++ right :: vs), ?_, fun hne ts hc => ?_⟩
      · rw [hr]
        simp only [State.read] at hus hvs
        rw [hus, hr', hvs]
        simp
      · have hlen : args.length ≤ 255 := maxArity_eq ▸ Nat.le_of_add_left_le hlen
        simpa using hsuffix hne _ (Derives.apply hc hl hargs hlen hright)
  · rw [bind_eq_ok] at h
    obtain ⟨o, t, ho, h⟩ := h
    rcases acceptIf_eq_ok.mp ho with ⟨dot, rest, hr, hd, rfl, rfl⟩ | ⟨-, rfl, rfl⟩
    · rw [bind_eq_ok] at h
      obtain ⟨name, v, hv, h⟩ := h
      obtain ⟨rest', hr', hn, rfl⟩ := expect_eq_ok.mp hv
      by_cases hc : (name.lexeme == constructorName) = true
      · simp only [hc, if_true] at h
        rw [bind_eq_ok] at h
        obtain ⟨_, w, hw, h⟩ := h
        cases hw
        exact absurd (ih.suffixes _ h he).1 (note_errors_ne _ _)
      · simp only [hc] at h
        obtain ⟨he₀, vs, hvs, hsuffix⟩ := ih.suffixes _ h he
        refine ⟨he₀, dot :: name :: vs, ?_, fun hne ts hobj => ?_⟩
        · rw [hr]
          simp only [State.read] at hr' hvs
          rw [hr', hvs]
          simp
        · have hname : name.lexeme ≠ constructorName := by simpa using hc
          simpa using hsuffix hne _ (Derives.get hobj hd hn hname)
    · cases h
      exact ⟨he, [], rfl, fun _ ts hc => by simpa using hc⟩

theorem reads_arguments {n : Nat} (ih : SoundExpressions n) (c : Nat) :
    Reads (Parser.arguments (n + 1) c) fun ts es rest =>
      rest ≠ [] → Derives .arguments ts es ∧ c + es.length ≤ Parser.maxArity := by
  unfold Parser.arguments
  refine .checked (fun _ => ⟨_, rfl⟩) fun s es s' h he => ?_
  rw [bind_eq_ok] at h
  obtain ⟨arg, t, ht, h⟩ := h
  rw [bind_eq_ok] at h
  obtain ⟨o, u, ho, h⟩ := h
  rcases acceptIf_eq_ok.mp ho with ⟨comma, rest, hr, hcomma, rfl, rfl⟩ | ⟨-, rfl, rfl⟩
  · rw [bind_eq_ok] at h
    obtain ⟨args, v, hv, h⟩ := h
    cases h
    obtain ⟨he₁, us, hus, hargs⟩ := ih.arguments _ hv he
    obtain ⟨he₀, ts, hts, harg⟩ := ih.expression ht he₁
    refine ⟨he₀, ts ++ comma :: us, ?_, fun _ hne => ?_⟩
    · simp only [State.read] at hus
      rw [hts, hr, hus]
      simp
    · obtain ⟨hargs, hlen⟩ := hargs hne
      refine ⟨.argument (harg (ne_nil_of_rest hr)) hcomma hargs, ?_⟩
      rw [List.length_cons]
      omega
  · cases h
    obtain ⟨he₀, ts, hts, harg⟩ := ih.expression ht he
    exact ⟨he₀, ts, hts, fun hc hne => ⟨.lastArgument (harg hne), Nat.lt_of_not_le hc⟩⟩

theorem reads_primary {n : Nat} (ih : SoundExpressions n) :
    Reads (Parser.primary (n + 1)) fun ts e rest => rest ≠ [] → Derives .primary ts e := by
  intro s e s' h he
  unfold Parser.primary at h
  cases hr : s.rest with
  | nil =>
    -- Nothing is left, before or after.
    rw [hr] at h
    dsimp only at h
    obtain ⟨value, hlast⟩ | hlast := Parser.lastLiteral_cases s
    · rw [hlast] at h
      cases h
      exact ⟨he, [], hr.symm, fun hne => absurd hr hne⟩
    · rw [hlast] at h
      cases h
  | cons t rest =>
    rw [hr] at h
    simp only at h
    split at h
    case h_1 value hk => cases h; exact ⟨he, [t], rfl, fun _ => .number hk⟩
    case h_2 value hk => cases h; exact ⟨he, [t], rfl, fun _ => .string hk⟩
    case h_3 hk => cases h; exact ⟨he, [t], rfl, fun _ => .falsity (decide_eq_true hk)⟩
    case h_4 hk => cases h; exact ⟨he, [t], rfl, fun _ => .truth (decide_eq_true hk)⟩
    case h_5 hk => cases h; exact ⟨he, [t], rfl, fun _ => .null (decide_eq_true hk)⟩
    case h_6 hk => cases h; exact ⟨he, [t], rfl, fun _ => .undefined (decide_eq_true hk)⟩
    case h_7 hk =>
      unfold Parser.superAccess at h
      rw [bind_eq_ok] at h
      obtain ⟨dot, u, hu, h⟩ := h
      obtain ⟨rest₁, hr₁, hdot, rfl⟩ := expect_eq_ok.mp hu
      rw [bind_eq_ok] at h
      obtain ⟨method, u, hu, h⟩ := h
      obtain ⟨rest₂, hr₂, hmethod, rfl⟩ := expect_eq_ok.mp hu
      rw [bind_eq_ok] at h
      obtain ⟨ref, u, hu, h⟩ := h
      cases hu
      cases h
      refine ⟨he, [t, dot, method], ?_, fun _ => .super _ (decide_eq_true hk) hdot hmethod⟩
      simp only [State.read] at hr₁ hr₂
      rw [hr₁, hr₂]
      rfl
    case h_8 hk => cases h; exact ⟨he, [t], rfl, fun _ => .this _ (decide_eq_true hk)⟩
    case h_9 hk => cases h; exact ⟨he, [t], rfl, fun _ => .name _ (decide_eq_true hk)⟩
    case h_10 hk =>
      obtain ⟨inner, u, hu, h⟩ := bind_eq_ok (p := Parser.expression n).mp h
      obtain ⟨right, v, hv, h⟩ := bind_eq_ok (p := Parser.expect _ _).mp h
      obtain ⟨rest₁, hr₁, hright, rfl⟩ := expect_eq_ok.mp hv
      cases h
      obtain ⟨he₀, ts, hts, hd⟩ := ih.expression hu he
      refine ⟨he₀, t :: (ts ++ [right]), ?_, fun _ =>
        .group (decide_eq_true hk) (hd (ne_nil_of_rest hr₁)) hright⟩
      simp only at hts
      rw [hts, hr₁]
      simp [State.read]
    case h_11 hk =>
      obtain ⟨he₀, ts, hts, hd⟩ := ih.call h he
      refine ⟨he₀, t :: ts, ?_, fun hne => .new (decide_eq_true hk) (hd hne)⟩
      simp only at hts
      rw [hts]
      rfl
    case h_12 => cases h

/-- **Expressions that are accepted derive**, if a token follows. -/
theorem soundExpressions : ∀ n, SoundExpressions n
  | 0 =>
    { expression := reads_exhausted _
      level := fun _ => reads_exhausted _
      operand := fun _ => reads_exhausted _
      more := fun _ _ => reads_exhausted _
      unary := reads_exhausted _
      call := reads_exhausted _
      suffixes := fun _ => reads_exhausted _
      arguments := fun _ => reads_exhausted _
      primary := reads_exhausted _ }
  | n + 1 => by
    have ih := soundExpressions n
    refine ⟨reads_expression ih, fun l => ?_, fun l => ?_, reads_more ih, ?_, ?_,
      reads_suffixes ih, reads_arguments ih, reads_primary ih⟩
    · intro s e s' h he
      unfold Parser.level at h
      rw [bind_eq_ok] at h
      obtain ⟨left, t, ht, h⟩ := h
      obtain ⟨he₁, us, hus, hmore⟩ := ih.more l left h he
      obtain ⟨he₀, ts, hts, hd⟩ := ih.operand l ht he₁
      exact ⟨he₀, ts ++ us, by rw [hts, hus]; simp, fun hne => hmore hne ts (.single (hd (ne_nil_of_append hus hne)))⟩
    · intro s e s' h he
      unfold Parser.operand at h
      cases hl : l.tighter with
      | some l' =>
        rw [hl] at h
        obtain ⟨he₀, ts, hts, hd⟩ := ih.level l' h he
        exact ⟨he₀, ts, hts, fun hne => .tighter (tighter_iff.mpr hl) (hd hne)⟩
      | none =>
        rw [hl] at h
        obtain ⟨he₀, ts, hts, hd⟩ := ih.unary h he
        obtain rfl := tightest_iff.mpr hl
        exact ⟨he₀, ts, hts, fun hne => .tightest (hd hne)⟩
    · intro s e s' h he
      unfold Parser.unary at h
      rw [bind_eq_ok] at h
      obtain ⟨o, t, ho, h⟩ := h
      rcases acceptIf_eq_ok.mp ho with ⟨op, rest, hr, hop, rfl, rfl⟩ | ⟨-, rfl, rfl⟩
      · rw [bind_eq_ok] at h
        obtain ⟨operand, u, hu, h⟩ := h
        cases h
        obtain ⟨he₀, ts, hts, hd⟩ := ih.unary hu he
        refine ⟨he₀, op :: ts, ?_, fun hne => .operator hop (hd hne)⟩
        simp only [State.read] at hts
        rw [hr, hts]
        rfl
      · obtain ⟨he₀, ts, hts, hd⟩ := ih.call h he
        exact ⟨he₀, ts, hts, fun hne => .bare (hd hne)⟩
    · intro s e s' h he
      unfold Parser.call at h
      rw [bind_eq_ok] at h
      obtain ⟨callee, t, ht, h⟩ := h
      obtain ⟨he₁, us, hus, hsuffix⟩ := ih.suffixes callee h he
      obtain ⟨he₀, ts, hts, hd⟩ := ih.primary ht he₁
      exact ⟨he₀, ts ++ us, by rw [hts, hus]; simp, fun hne => hsuffix hne ts (.plain (hd (ne_nil_of_append hus hne)))⟩

/-! ## Statements -/

theorem reads_parameters : ∀ n c, Reads (Parser.parameters n c) fun ts names _ =>
    Names ts names ∧ c + names.length ≤ Parser.maxArity
  | 0, _ => reads_exhausted _
  | n + 1, c => by
    unfold Parser.parameters
    refine .checked (fun _ => ⟨_, rfl⟩) fun s names s' h he => ?_
    rw [bind_eq_ok] at h
    obtain ⟨name, t, ht, h⟩ := h
    obtain ⟨rest, hr, hn, rfl⟩ := expect_eq_ok.mp ht
    rw [bind_eq_ok] at h
    obtain ⟨o, u, ho, h⟩ := h
    rcases acceptIf_eq_ok.mp ho with ⟨comma, rest', hr', hcomma, rfl, rfl⟩ | ⟨-, rfl, rfl⟩
    · rw [bind_eq_ok] at h
      obtain ⟨params, v, hv, h⟩ := h
      cases h
      obtain ⟨he₀, us, hus, hnames, hlen⟩ := reads_parameters n _ hv he
      refine ⟨he₀, name :: comma :: us, ?_, fun _ => ⟨.cons hn hcomma hnames, ?_⟩⟩
      · simp only [State.read] at hr' hus
        rw [hr, hr', hus]
        rfl
      · rw [List.length_cons]
        omega
    · cases h
      exact ⟨he, [name], hr, fun hc => ⟨.one hn, Nat.lt_of_not_le hc⟩⟩

theorem reads_expressionUnless (n : Nat) (k : Symbol) :
    Reads (Parser.expressionUnless n k) fun ts o rest => rest ≠ [] → Derives .clause ts o := by
  intro s o s' h he
  unfold Parser.expressionUnless at h
  rw [bind_eq_ok] at h
  obtain ⟨seen, t, ht, h⟩ := h
  cases ht
  cases hs : s.sees k with
  | true =>
    rw [hs] at h
    cases h
    exact ⟨he, [], rfl, fun _ => .noClause⟩
  | false =>
    rw [hs, if_neg Bool.false_ne_true, bind_eq_ok] at h
    obtain ⟨e, u, hu, h⟩ := h
    cases h
    obtain ⟨he₀, ts, hts, hd⟩ := (soundExpressions n).expression hu he
    exact ⟨he₀, ts, hts, fun hne => .someClause (hd hne)⟩

theorem reads_letDeclaration (n : Nat) : Reads (Parser.letDeclaration n) fun ts d _ =>
    ∀ keyword : Token, keyword.is .letKw → Derives .letDeclaration (keyword :: ts) d := by
  intro s d s' h he
  unfold Parser.letDeclaration at h
  rw [bind_eq_ok] at h
  obtain ⟨name, t, ht, h⟩ := h
  obtain ⟨rest, hr, hn, rfl⟩ := expect_eq_ok.mp ht
  rw [bind_eq_ok] at h
  obtain ⟨o, u, ho, h⟩ := h
  rcases acceptIf_eq_ok.mp ho with ⟨eq, rest', hr', heq, rfl, rfl⟩ | ⟨-, rfl, rfl⟩
  · rw [bind_eq_ok] at h
    obtain ⟨init, v, hv, h⟩ := h
    obtain ⟨e, hw, rfl⟩ := map_eq_ok.mp hv
    rw [bind_eq_ok] at h
    obtain ⟨semicolon, x, hx, h⟩ := h
    obtain ⟨rest₂, hr₂, hsemi, rfl⟩ := expect_eq_ok.mp hx
    cases h
    obtain ⟨he₀, ts, hts, hd⟩ := (soundExpressions n).expression hw he
    refine ⟨he₀, name :: eq :: (ts ++ [semicolon]), ?_, fun keyword hk =>
      .declareInit hk hn heq (hd (ne_nil_of_rest hr₂)) hsemi⟩
    simp only [State.read] at hr' hts ⊢
    rw [hr, hr', hts, hr₂]
    simp
  · rw [bind_eq_ok] at h
    obtain ⟨init, v, hv, h⟩ := h
    cases hv
    rw [bind_eq_ok] at h
    obtain ⟨semicolon, x, hx, h⟩ := h
    obtain ⟨rest₂, hr₂, hsemi, rfl⟩ := expect_eq_ok.mp hx
    cases h
    refine ⟨he, [name, semicolon], ?_, fun keyword hk => .declare hk hn hsemi⟩
    simp only [State.read] at hr₂ ⊢
    rw [hr, hr₂]
    rfl

theorem reads_expressionStatement (n : Nat) :
    Reads (Parser.expressionStatement n) fun ts d _ => Derives .expressionStatement ts d := by
  intro s d s' h he
  unfold Parser.expressionStatement at h
  rw [bind_eq_ok] at h
  obtain ⟨e, t, ht, h⟩ := h
  rw [bind_eq_ok] at h
  obtain ⟨semicolon, u, hu, h⟩ := h
  obtain ⟨rest, hr, hsemi, rfl⟩ := expect_eq_ok.mp hu
  cases h
  obtain ⟨he₀, ts, hts, hd⟩ := (soundExpressions n).expression ht he
  exact ⟨he₀, ts ++ [semicolon], by rw [hts, hr]; simp [State.read],
    .evaluate (hd (ne_nil_of_rest hr)) hsemi⟩

theorem reads_returnStatement (n : Nat) {keyword : Token} (hk : keyword.is .returnKw) :
    Reads (Parser.returnStatement n keyword) fun ts d _ =>
      Derives (.statement false) (keyword :: ts) d := by
  intro s d s' h he
  unfold Parser.returnStatement at h
  rw [bind_eq_ok] at h
  obtain ⟨value, t, ht, h⟩ := h
  rw [bind_eq_ok] at h
  obtain ⟨semicolon, u, hu, h⟩ := h
  obtain ⟨rest, hr, hsemi, rfl⟩ := expect_eq_ok.mp hu
  cases h
  obtain ⟨he₀, ts, hts, hd⟩ := reads_expressionUnless n _ ht he
  exact ⟨he₀, ts ++ [semicolon], by rw [hts, hr]; simp [State.read],
    .returnStatement hk (hd (ne_nil_of_rest hr)) hsemi⟩

theorem reads_forInit (n : Nat) :
    Reads (Parser.forInit n) fun ts init _ => Derives .forInit ts init := by
  intro s init s' h he
  unfold Parser.forInit at h
  rw [bind_eq_ok] at h
  obtain ⟨o, t, ho, h⟩ := h
  rcases acceptIf_eq_ok.mp ho with ⟨semicolon, rest, hr, hsemi, rfl, rfl⟩ | ⟨-, rfl, rfl⟩
  · cases h
    exact ⟨he, [semicolon], hr, .initNone hsemi⟩
  · rw [bind_eq_ok] at h
    obtain ⟨o, u, ho, h⟩ := h
    rcases acceptIf_eq_ok.mp ho with ⟨keyword, rest, hr, hk, rfl, rfl⟩ | ⟨-, rfl, rfl⟩
    · obtain ⟨d, hv, rfl⟩ := map_eq_ok.mp h
      obtain ⟨he₀, ts, hts, hd⟩ := reads_letDeclaration n hv he
      refine ⟨he₀, keyword :: ts, ?_, .initLet (hd keyword hk)⟩
      simp only [State.read] at hts
      rw [hr, hts]
      rfl
    · obtain ⟨d, hv, rfl⟩ := map_eq_ok.mp h
      obtain ⟨he₀, ts, hts, hd⟩ := reads_expressionStatement n hv he
      exact ⟨he₀, ts, hts, .initExpression hd⟩

theorem reads_nameAfter (k : Symbol) (f : SyntaxFault) :
    Reads (Parser.nameAfter k f) fun ts o _ => (ts = [] ∧ o = none) ∨
      ∃ keyword name : Token, ts = [keyword, name] ∧ keyword.is k ∧ name.is .identifier ∧
        o = some name := by
  intro s o s' h he
  unfold Parser.nameAfter at h
  rw [bind_eq_ok] at h
  obtain ⟨found, t, ht, h⟩ := h
  rcases acceptIf_eq_ok.mp ht with ⟨keyword, rest, hr, hk, rfl, rfl⟩ | ⟨-, rfl, rfl⟩
  · obtain ⟨name, hu, rfl⟩ := map_eq_ok.mp h
    obtain ⟨rest', hr', hn, rfl⟩ := expect_eq_ok.mp hu
    refine ⟨he, [keyword, name], ?_, .inr ⟨keyword, name, rfl, hk, hn, rfl⟩⟩
    simp only [State.read] at hr' ⊢
    rw [hr, hr']
    rfl
  · cases h
    exact ⟨he, [], rfl, .inl ⟨rfl, rfl⟩⟩

theorem reads_superclass : Reads Parser.superclass fun ts o _ => Extends ts o := by
  intro s o s' h he
  unfold Parser.superclass at h
  rw [bind_eq_ok] at h
  obtain ⟨name, t, ht, h⟩ := h
  have ⟨he', hname⟩ : s'.errors = t.errors ∧ s'.rest = t.rest := by
    cases name with
    | some name =>
      rw [bind_eq_ok] at h
      obtain ⟨ref, u, hu, h⟩ := h
      cases hu
      cases h
      exact ⟨rfl, rfl⟩
    | none => cases h; exact ⟨rfl, rfl⟩
  obtain ⟨he₀, ts, hts, hd⟩ := reads_nameAfter _ _ ht (he' ▸ he)
  refine ⟨he₀, ts, by rw [hts, hname], ?_⟩
  rcases hd with ⟨rfl, rfl⟩ | ⟨keyword, name, rfl, hk, hn, rfl⟩
  · cases h
    exact .none
  · rw [bind_eq_ok] at h
    obtain ⟨ref, u, hu, h⟩ := h
    cases h
    exact .some ref hk hn

theorem reads_interface : Reads (Parser.nameAfter .implementsKw .noInterfaceName) fun ts o _ =>
    Implements ts o := by
  intro s o s' h he
  obtain ⟨he₀, ts, hts, hd⟩ := reads_nameAfter _ _ h he
  refine ⟨he₀, ts, hts, ?_⟩
  rcases hd with ⟨rfl, rfl⟩ | ⟨keyword, name, rfl, hk, hn, rfl⟩
  · exact .none
  · exact .some hk hn

/-- The next token is not the symbol `k`. -/
def Without (k : Symbol) (ts : List Token) : Prop := ∀ t ∈ ts.head?, t.is k = false

/-- Nothing or the end of the text comes next. -/
def Ended (rest : List Token) : Prop := ∀ t ∈ rest.head?, t.is .endOfText = true

/-- A statement has been read, and is not followed by an `else` that it would have taken. -/
def ReadsStatement (p : Parser Stmt) (begun : List Token → List Token → Prop) : Prop :=
  Reads p fun us stmt rest => ∃ dangling, (dangling = true → Without .elseKw rest) ∧
    ∀ ts, begun us ts → Derives (.statement dangling) ts stmt

/-- The statement's keyword of the given kind has been read before. -/
def After (k : Symbol) (us ts : List Token) : Prop :=
  ∃ keyword : Token, keyword.is k ∧ ts = keyword :: us

/-- Every rule for statements reads what it derives. -/
structure SoundStatements (n : Nat) : Prop where
  declarations (b : Bool) : Reads (Parser.declarations n b) fun ts ds rest =>
    Derives .declarations ts ds ∧ (b = false → Ended rest)
  declaration : Reads (Parser.declaration n) fun ts d _ => Derives .declaration ts d
  classDeclaration : Reads (Parser.classDeclaration n) fun us d _ =>
    ∀ ts, After .classKw us ts → Derives .declaration ts d
  methods : Reads (Parser.methods n) fun ts ds _ => Derives .methods ts ds
  function (form : FunctionForm) : Reads (Parser.function n form) fun ts d _ =>
    Derives .function ts d
  block : Reads (Parser.block n) fun us ds _ => ∀ ts, After .leftBrace us ts → Derives .block ts ds
  statement : ReadsStatement (Parser.statement n) Eq
  forStatement : ReadsStatement (Parser.forStatement n) (After .forKw)
  ifStatement : ReadsStatement (Parser.ifStatement n) (After .ifKw)
  whileStatement : ReadsStatement (Parser.whileStatement n) (After .whileKw)

theorem reads_declarations {n : Nat} (ih : SoundStatements n) (b : Bool) :
    Reads (Parser.declarations (n + 1) b) fun ts ds rest =>
      Derives .declarations ts ds ∧ (b = false → Ended rest) := by
  intro s ds s' h he
  unfold Parser.declarations at h
  rw [bind_eq_ok] at h
  obtain ⟨ended, t, ht, h⟩ := h
  cases ht
  rw [bind_eq_ok] at h
  obtain ⟨closed, t, ht, h⟩ := h
  cases ht
  split_ifs at h with hc
  · cases h
    refine ⟨he, [], rfl, .noDeclaration, fun hb t ht => ?_⟩
    simp only [hb, Bool.false_and, Bool.or_false, State.atEnd] at hc
    split at hc
    · next hr => rw [hr] at ht; cases ht
    · next u _ hr => rw [hr] at ht; cases ht; exact hc
  · rw [bind_eq_ok] at h
    obtain ⟨o, t, ht, h⟩ := h
    unfold Parser.recover at ht
    cases hd : Parser.declaration n s with
    | exhausted => rw [hd] at ht; cases ht
    | ok d u =>
      rw [hd] at ht
      cases ht
      rw [bind_eq_ok] at h
      obtain ⟨ds, v, hv, h⟩ := h
      cases h
      obtain ⟨he₁, us, hus, hds, hend⟩ := ih.declarations b hv he
      obtain ⟨he₀, ts, hts, hd⟩ := ih.declaration hd he₁
      exact ⟨he₀, ts ++ us, by rw [hts, hus]; simp, .moreDeclarations hd hds, hend⟩
    | fail e u =>
      -- A failed declaration leaves its error behind.
      rw [hd] at ht
      cases ht
      have hnone := (ih.declarations b h he).1
      have hsize := (State.before_synchronize (u.note e)).errors
      rw [hnone] at hsize
      simp [State.note] at hsize

theorem reads_classDeclaration {n : Nat} (ih : SoundStatements n) :
    Reads (Parser.classDeclaration (n + 1)) fun us d _ =>
      ∀ ts, After .classKw us ts → Derives .declaration ts d := by
  intro s d s' h he
  unfold Parser.classDeclaration at h
  rw [bind_eq_ok] at h
  obtain ⟨name, t, ht, h⟩ := h
  obtain ⟨rest, hr, hn, rfl⟩ := expect_eq_ok.mp ht
  rw [bind_eq_ok] at h
  obtain ⟨superclass, t, hsuper, h⟩ := h
  rw [bind_eq_ok] at h
  obtain ⟨interface, u, hinterface, h⟩ := h
  rw [bind_eq_ok] at h
  obtain ⟨left, v, hv, h⟩ := h
  obtain ⟨rest₁, hr₁, hl, rfl⟩ := expect_eq_ok.mp hv
  rw [bind_eq_ok] at h
  obtain ⟨methods, w, hmethods, h⟩ := h
  rw [bind_eq_ok] at h
  obtain ⟨right, x, hx, h⟩ := h
  obtain ⟨rest₂, hr₂, hright, rfl⟩ := expect_eq_ok.mp hx
  cases h
  obtain ⟨he₂, ms, hms, hm⟩ := ih.methods hmethods he
  obtain ⟨he₁, is, his, hi⟩ := reads_interface hinterface he₂
  obtain ⟨he₀, xs, hxs, hext⟩ := reads_superclass hsuper he₁
  refine ⟨he₀, name :: (xs ++ (is ++ left :: (ms ++ [right]))), ?_, ?_⟩
  · simp only [State.read] at hms hxs ⊢
    rw [hr, hxs, his, hr₁, hms, hr₂]
    simp
  · rintro _ ⟨keyword, hk, rfl⟩
    exact .classDeclaration hk hn hext hi hl hm hright

/-- A function after its parameters. -/
theorem reads_functionRest {n : Nat} (ih : SoundStatements n) (form : FunctionForm) (name : Token)
    (params : List Token) :
    Reads (do
      let _ ← Parser.expect .rightParen .unclosedParameters
      let _ ← Parser.expect .leftBrace (.noFunctionBody form)
      let body ← Parser.block n
      return FunctionDecl.mk name params body) fun us d _ =>
        ∀ (left : Token) (ps : List Token), name.is .identifier → left.is .leftParen →
          Parameters ps params → Derives .function (name :: left :: (ps ++ us)) d := by
  intro s d s' h he
  rw [bind_eq_ok] at h
  obtain ⟨right, t, ht, h⟩ := h
  obtain ⟨rest₁, hr₁, hright, rfl⟩ := expect_eq_ok.mp ht
  rw [bind_eq_ok] at h
  obtain ⟨brace, t, ht, h⟩ := h
  obtain ⟨rest₂, hr₂, hbrace, rfl⟩ := expect_eq_ok.mp ht
  rw [bind_eq_ok] at h
  obtain ⟨body, t, ht, h⟩ := h
  cases h
  obtain ⟨he₀, bs, hbs, hbody⟩ := ih.block ht he
  refine ⟨he₀, right :: brace :: bs, ?_, fun left ps hn hl hp => ?_⟩
  · simp only [State.read] at hr₂ hbs
    rw [hr₁, hr₂, hbs]
    rfl
  · exact .function hn hl hp hright (hbody _ ⟨brace, hbrace, rfl⟩)

theorem reads_function {n : Nat} (ih : SoundStatements n) (form : FunctionForm) :
    Reads (Parser.function (n + 1) form) fun ts d _ => Derives .function ts d := by
  intro s d s' h he
  unfold Parser.function at h
  rw [bind_eq_ok] at h
  obtain ⟨name, t, ht, h⟩ := h
  obtain ⟨rest, hr, hn, rfl⟩ := expect_eq_ok.mp ht
  rw [bind_eq_ok] at h
  obtain ⟨left, t, ht, h⟩ := h
  obtain ⟨rest₁, hr₁, hl, rfl⟩ := expect_eq_ok.mp ht
  rw [bind_eq_ok] at h
  obtain ⟨empty, t, ht, h⟩ := h
  cases ht
  simp only [State.read] at hr₁
  cases hempty : ((s.read name rest).read left rest₁).sees .rightParen with
  | true =>
    rw [hempty, if_pos rfl, bind_eq_ok] at h
    obtain ⟨params, t, ht, h⟩ := h
    cases ht
    obtain ⟨he₀, us, hus, hd⟩ := reads_functionRest ih form name [] h he
    refine ⟨he₀, name :: left :: us, ?_, hd left [] hn hl .none⟩
    simp only [State.read] at hus
    rw [hr, hr₁, hus]
    rfl
  | false =>
    rw [hempty, if_neg Bool.false_ne_true, bind_eq_ok] at h
    obtain ⟨params, t, ht, h⟩ := h
    obtain ⟨he₁, us, hus, hd⟩ := reads_functionRest ih form name params h he
    obtain ⟨he₀, ps, hps, hnames, hlen⟩ := reads_parameters n 0 ht he₁
    have hlen : params.length ≤ 255 := maxArity_eq ▸ Nat.le_of_add_left_le hlen
    refine ⟨he₀, name :: left :: (ps ++ us), ?_, hd left ps hn hl (.some hnames hlen)⟩
    simp only [State.read] at hps
    rw [hr, hr₁, hps, hus]
    simp

theorem reads_methods {n : Nat} (ih : SoundStatements n) :
    Reads (Parser.methods (n + 1)) fun ts ds _ => Derives .methods ts ds := by
  intro s ds s' h he
  unfold Parser.methods at h
  rw [bind_eq_ok] at h
  obtain ⟨closed, t, ht, h⟩ := h
  cases ht
  rw [bind_eq_ok] at h
  obtain ⟨ended, t, ht, h⟩ := h
  cases ht
  split_ifs at h with hc
  · cases h
    exact ⟨he, [], rfl, .noMethod⟩
  · rw [bind_eq_ok] at h
    obtain ⟨d, t, ht, h⟩ := h
    rw [bind_eq_ok] at h
    obtain ⟨ds, u, hu, h⟩ := h
    cases h
    obtain ⟨he₁, us, hus, hds⟩ := ih.methods hu he
    obtain ⟨he₀, ts, hts, hd⟩ := ih.function _ ht he₁
    exact ⟨he₀, ts ++ us, by rw [hts, hus]; simp, .moreMethods hd hds⟩

theorem reads_declaration {n : Nat} (ih : SoundStatements n) :
    Reads (Parser.declaration (n + 1)) fun ts d _ => Derives .declaration ts d := by
  intro s d s' h he
  unfold Parser.declaration at h
  rw [bind_eq_ok] at h
  obtain ⟨o, t, ho, h⟩ := h
  rcases acceptIf_eq_ok.mp ho with ⟨keyword, rest, hr, hk, rfl, rfl⟩ | ⟨-, rfl, rfl⟩
  · obtain ⟨he₀, ts, hts, hd⟩ := ih.classDeclaration h he
    refine ⟨he₀, keyword :: ts, ?_, hd _ ⟨keyword, hk, rfl⟩⟩
    simp only [State.read] at hts
    rw [hr, hts]
    rfl
  rw [bind_eq_ok] at h
  obtain ⟨o, t, ho, h⟩ := h
  rcases acceptIf_eq_ok.mp ho with ⟨keyword, rest, hr, hk, rfl, rfl⟩ | ⟨-, rfl, rfl⟩
  · rw [bind_eq_ok] at h
    obtain ⟨decl, u, hu, h⟩ := h
    cases h
    obtain ⟨he₀, ts, hts, hd⟩ := ih.function _ hu he
    refine ⟨he₀, keyword :: ts, ?_, .functionDeclaration hk hd⟩
    simp only [State.read] at hts
    rw [hr, hts]
    rfl
  rw [bind_eq_ok] at h
  obtain ⟨o, t, ho, h⟩ := h
  rcases acceptIf_eq_ok.mp ho with ⟨keyword, rest, hr, hk, rfl, rfl⟩ | ⟨-, rfl, rfl⟩
  · obtain ⟨he₀, ts, hts, hd⟩ := reads_letDeclaration n h he
    refine ⟨he₀, keyword :: ts, ?_, .variableDeclaration (hd keyword hk)⟩
    simp only [State.read] at hts
    rw [hr, hts]
    rfl
  · obtain ⟨he₀, ts, hts, dangling, -, hd⟩ := ih.statement h he
    exact ⟨he₀, ts, hts, .statement (hd ts rfl)⟩

theorem reads_statement {n : Nat} (ih : SoundStatements n) :
    ReadsStatement (Parser.statement (n + 1)) Eq := by
  intro s d s' h he
  -- A keyword has been read, and the rest of its statement is in `p`.
  have keyword {p : Parser Stmt} {k : Symbol} {t : Token} {rest : List Token}
      (hp : ReadsStatement p (After k)) (hr : s.rest = t :: rest) (hk : t.is k = true)
      (h : p (s.read t rest) = .ok d s') : s.errors = #[] ∧ ∃ ts, s.rest = ts ++ s'.rest ∧
        ∃ dangling, (dangling = true → Without .elseKw s'.rest) ∧
          ∀ us, ts = us → Derives (.statement dangling) us d := by
    obtain ⟨he₀, ts, hts, dangling, hno, hd⟩ := hp h he
    refine ⟨he₀, t :: ts, ?_, dangling, hno, ?_⟩
    · simp only [State.read] at hts
      rw [hr, hts]
      rfl
    · rintro _ rfl
      exact hd _ ⟨t, hk, rfl⟩
  unfold Parser.statement at h
  rw [bind_eq_ok] at h
  obtain ⟨o, t, ho, h⟩ := h
  rcases acceptIf_eq_ok.mp ho with ⟨t, rest, hr, hk, rfl, rfl⟩ | ⟨-, rfl, rfl⟩
  · exact keyword ih.forStatement hr hk h
  rw [bind_eq_ok] at h
  obtain ⟨o, t, ho, h⟩ := h
  rcases acceptIf_eq_ok.mp ho with ⟨t, rest, hr, hk, rfl, rfl⟩ | ⟨-, rfl, rfl⟩
  · exact keyword ih.ifStatement hr hk h
  rw [bind_eq_ok] at h
  obtain ⟨o, t, ho, h⟩ := h
  rcases acceptIf_eq_ok.mp ho with ⟨t, rest, hr, hk, rfl, rfl⟩ | ⟨-, rfl, rfl⟩
  · obtain ⟨he₀, ts, hts, hd⟩ := reads_returnStatement n hk h he
    refine ⟨he₀, t :: ts, ?_, false, by simp, ?_⟩
    · simp only [State.read] at hts
      rw [hr, hts]
      rfl
    · rintro _ rfl
      exact hd
  rw [bind_eq_ok] at h
  obtain ⟨o, t, ho, h⟩ := h
  rcases acceptIf_eq_ok.mp ho with ⟨t, rest, hr, hk, rfl, rfl⟩ | ⟨-, rfl, rfl⟩
  · exact keyword ih.whileStatement hr hk h
  rw [bind_eq_ok] at h
  obtain ⟨o, t, ho, h⟩ := h
  rcases acceptIf_eq_ok.mp ho with ⟨t, rest, hr, hk, rfl, rfl⟩ | ⟨-, rfl, rfl⟩
  · rw [bind_eq_ok] at h
    obtain ⟨ds, u, hu, h⟩ := h
    cases h
    obtain ⟨he₀, ts, hts, hd⟩ := ih.block hu he
    refine ⟨he₀, t :: ts, ?_, false, by simp, ?_⟩
    · simp only [State.read] at hts
      rw [hr, hts]
      rfl
    · rintro _ rfl
      exact .blockStatement (hd _ ⟨t, hk, rfl⟩)
  · obtain ⟨he₀, ts, hts, hd⟩ := reads_expressionStatement n h he
    refine ⟨he₀, ts, hts, false, by simp, ?_⟩
    rintro _ rfl
    exact .exprStatement hd

theorem reads_forStatement {n : Nat} (ih : SoundStatements n) :
    ReadsStatement (Parser.forStatement (n + 1)) (After .forKw) := by
  intro s d s' h he
  unfold Parser.forStatement at h
  rw [bind_eq_ok] at h
  obtain ⟨left, t, ht, h⟩ := h
  obtain ⟨rest, hr, hl, rfl⟩ := expect_eq_ok.mp ht
  rw [bind_eq_ok] at h
  obtain ⟨init, t, hinit, h⟩ := h
  rw [bind_eq_ok] at h
  obtain ⟨cond, u, hcond, h⟩ := h
  rw [bind_eq_ok] at h
  obtain ⟨semicolon, v, hv, h⟩ := h
  obtain ⟨rest₁, hr₁, hsemi, rfl⟩ := expect_eq_ok.mp hv
  rw [bind_eq_ok] at h
  obtain ⟨step, w, hstep, h⟩ := h
  rw [bind_eq_ok] at h
  obtain ⟨right, x, hx, h⟩ := h
  obtain ⟨rest₂, hr₂, hright, rfl⟩ := expect_eq_ok.mp hx
  rw [bind_eq_ok] at h
  obtain ⟨body, y, hbody, h⟩ := h
  cases h
  obtain ⟨he₃, bs, hbs, dangling, hno, hb⟩ := ih.statement hbody he
  obtain ⟨he₂, ss, hss, hs⟩ := reads_expressionUnless n _ hstep he₃
  obtain ⟨he₁, cs, hcs, hc⟩ := reads_expressionUnless n _ hcond he₂
  obtain ⟨he₀, is, his, hi⟩ := reads_forInit n hinit he₁
  refine ⟨he₀, left :: (is ++ (cs ++ semicolon :: (ss ++ right :: bs))), ?_, dangling, hno, ?_⟩
  · simp only [State.read] at his hss hbs
    rw [hr, his, hcs, hr₁, hss, hr₂, hbs]
    simp
  · rintro _ ⟨keyword, hk, rfl⟩
    rw [← forTree_eq]
    exact .forStatement hk hl hi (hc (ne_nil_of_rest hr₁)) hsemi (hs (ne_nil_of_rest hr₂)) hright
      (hb bs rfl)

theorem reads_ifStatement {n : Nat} (ih : SoundStatements n) :
    ReadsStatement (Parser.ifStatement (n + 1)) (After .ifKw) := by
  intro s d s' h he
  unfold Parser.ifStatement at h
  rw [bind_eq_ok] at h
  obtain ⟨left, t, ht, h⟩ := h
  obtain ⟨rest, hr, hl, rfl⟩ := expect_eq_ok.mp ht
  rw [bind_eq_ok] at h
  obtain ⟨cond, t, hcond, h⟩ := h
  rw [bind_eq_ok] at h
  obtain ⟨right, u, hu, h⟩ := h
  obtain ⟨rest₁, hr₁, hright, rfl⟩ := expect_eq_ok.mp hu
  rw [bind_eq_ok] at h
  obtain ⟨thenDo, v, hthen, h⟩ := h
  rw [bind_eq_ok] at h
  obtain ⟨o, w, ho, h⟩ := h
  rcases acceptIf_eq_ok.mp ho with ⟨other, rest₂, hr₂, hother, rfl, rfl⟩ | ⟨hno, rfl, rfl⟩
  · rw [bind_eq_ok] at h
    obtain ⟨elseDo, x, helse, h⟩ := h
    cases h
    obtain ⟨he₂, es, hes, dangling, hno, hd₂⟩ := ih.statement helse he
    obtain ⟨he₁, ts, hts, inner, hinner, hd₁⟩ := ih.statement hthen he₂
    obtain ⟨he₀, cs, hcs, hd₀⟩ := (soundExpressions n).expression hcond he₁
    -- The statement before an `else` does not dangle.
    have hclosed : inner = false := by
      cases inner with
      | false => rfl
      | true =>
        have := hinner rfl other (by rw [hr₂]; rfl)
        rw [hother] at this
        cases this
    subst hclosed
    refine ⟨he₀, left :: (cs ++ right :: (ts ++ other :: es)), ?_, dangling, hno, ?_⟩
    · simp only [State.read] at hcs hts hes
      rw [hr, hcs, hr₁, hts, hr₂, hes]
      simp
    · rintro _ ⟨keyword, hk, rfl⟩
      exact .ifThenElse hk hl (hd₀ (ne_nil_of_rest hr₁)) hright (hd₁ ts rfl) hother (hd₂ es rfl)
  · cases h
    obtain ⟨he₁, ts, hts, inner, -, hd₁⟩ := ih.statement hthen he
    obtain ⟨he₀, cs, hcs, hd₀⟩ := (soundExpressions n).expression hcond he₁
    refine ⟨he₀, left :: (cs ++ right :: ts), ?_, true, fun _ => hno, ?_⟩
    · simp only [State.read] at hcs hts
      rw [hr, hcs, hr₁, hts]
      simp
    · rintro _ ⟨keyword, hk, rfl⟩
      exact .ifThen hk hl (hd₀ (ne_nil_of_rest hr₁)) hright (hd₁ ts rfl)

theorem reads_whileStatement {n : Nat} (ih : SoundStatements n) :
    ReadsStatement (Parser.whileStatement (n + 1)) (After .whileKw) := by
  intro s d s' h he
  unfold Parser.whileStatement at h
  rw [bind_eq_ok] at h
  obtain ⟨left, t, ht, h⟩ := h
  obtain ⟨rest, hr, hl, rfl⟩ := expect_eq_ok.mp ht
  rw [bind_eq_ok] at h
  obtain ⟨cond, t, hcond, h⟩ := h
  rw [bind_eq_ok] at h
  obtain ⟨right, u, hu, h⟩ := h
  obtain ⟨rest₁, hr₁, hright, rfl⟩ := expect_eq_ok.mp hu
  rw [bind_eq_ok] at h
  obtain ⟨body, v, hbody, h⟩ := h
  cases h
  obtain ⟨he₁, bs, hbs, dangling, hno, hb⟩ := ih.statement hbody he
  obtain ⟨he₀, cs, hcs, hc⟩ := (soundExpressions n).expression hcond he₁
  refine ⟨he₀, left :: (cs ++ right :: bs), ?_, dangling, hno, ?_⟩
  · simp only [State.read] at hcs hbs
    rw [hr, hcs, hr₁, hbs]
    simp
  · rintro _ ⟨keyword, hk, rfl⟩
    exact .whileStatement hk hl (hc (ne_nil_of_rest hr₁)) hright (hb bs rfl)

/-- **Statements that are accepted derive.** -/
theorem soundStatements : ∀ n, SoundStatements n
  | 0 =>
    { declarations := fun _ => reads_exhausted _
      declaration := reads_exhausted _
      classDeclaration := reads_exhausted _
      methods := reads_exhausted _
      function := fun _ => reads_exhausted _
      block := reads_exhausted _
      statement := reads_exhausted _
      forStatement := reads_exhausted _
      ifStatement := reads_exhausted _
      whileStatement := reads_exhausted _ }
  | n + 1 => by
    have ih := soundStatements n
    refine ⟨reads_declarations ih, reads_declaration ih, reads_classDeclaration ih,
      reads_methods ih, reads_function ih, ?_, reads_statement ih, reads_forStatement ih,
      reads_ifStatement ih, reads_whileStatement ih⟩
    intro s ds s' h he
    unfold Parser.block at h
    rw [bind_eq_ok] at h
    obtain ⟨body, t, ht, h⟩ := h
    rw [bind_eq_ok] at h
    obtain ⟨right, u, hu, h⟩ := h
    obtain ⟨rest, hr, hright, rfl⟩ := expect_eq_ok.mp hu
    cases h
    obtain ⟨he₀, ts, hts, hd, -⟩ := ih.declarations true ht he
    refine ⟨he₀, ts ++ [right], by rw [hts, hr]; simp [State.read], ?_⟩
    rintro _ ⟨left, hl, rfl⟩
    exact .block hl hd hright

/-! ## Programs -/

/-- No token of the list is the end of the text. -/
def NoEnd (ts : List Token) : Prop := ∀ t ∈ ts, t.is .endOfText = false

theorem Names.noEnd {ts names : List Token} (h : Names ts names) : NoEnd ts := by
  induction h with
  | one hn => simpa [NoEnd] using Token.is_ne hn (by decide)
  | cons hn hc _ ih =>
    simp only [NoEnd, List.forall_mem_cons]
    exact ⟨Token.is_ne hn (by decide), Token.is_ne hc (by decide), ih⟩

theorem Parameters.noEnd {ts names : List Token} (h : Parameters ts names) : NoEnd ts := by
  cases h with
  | none => simp [NoEnd]
  | some h _ => exact h.noEnd

theorem Extends.noEnd {ts : List Token} {o : Option Superclass} (h : Extends ts o) : NoEnd ts := by
  cases h with
  | none => simp [NoEnd]
  | some _ hk hn => simpa [NoEnd] using ⟨Token.is_ne hk (by decide), Token.is_ne hn (by decide)⟩

theorem Implements.noEnd {ts : List Token} {o : Option Token} (h : Implements ts o) : NoEnd ts := by
  cases h with
  | none => simp [NoEnd]
  | some hk hn => simpa [NoEnd] using ⟨Token.is_ne hk (by decide), Token.is_ne hn (by decide)⟩

theorem Derives.noEnd {r : Rule} {ts : List Token} {t : r.Tree} (h : Derives r ts t) :
    NoEnd ts := by
  induction h with
  | join _ ho _ ih₁ ih₂ =>
    simp only [NoEnd, List.forall_mem_append, List.forall_mem_cons]
    exact ⟨ih₁, Level.operator_ne_end (joins_iff.mp ho).1, ih₂⟩
  | classDeclaration hk hn hx hi hl _ hr ih =>
    have := hx.noEnd
    have := hi.noEnd
    grind [NoEnd, Token.is]
  | function hn hl hp hr _ ih =>
    have := hp.noEnd
    grind [NoEnd, Token.is]
  | _ => grind [NoEnd, Token.is]

/-- The tokens before the end of the text are those that are read. -/
theorem append_end_eq {body ts rest : List Token} {eof : Token} (hbody : NoEnd body)
    (hts : NoEnd ts) (heof : eof.is .endOfText = true) (h : body ++ [eof] = ts ++ rest)
    (hrest : Ended rest) : ts = body := by
  rcases rest with _ | ⟨t, rest⟩
  · have := hts eof (by rw [List.append_nil] at h; rw [← h]; simp)
    rw [heof] at this
    cases this
  · have ht : t.is .endOfText = true := hrest t rfl
    induction body generalizing ts with
    | nil =>
      cases ts with
      | nil => rfl
      | cons u us =>
        obtain ⟨rfl, -⟩ := List.cons.inj h
        have := hts eof List.mem_cons_self
        rw [heof] at this
        cases this
    | cons b body ih =>
      cases ts with
      | nil =>
        obtain ⟨rfl, -⟩ := List.cons.inj h
        have := hbody b List.mem_cons_self
        rw [ht] at this
        cases this
      | cons u us =>
        obtain ⟨hu, h'⟩ := List.cons.inj h
        rw [hu, ih (fun t ht => hbody t (List.mem_cons_of_mem b ht))
          (fun t ht => hts t (List.mem_cons_of_mem u ht)) h']

/-- **A program that is parsed without an error derives.** -/
theorem program_of_parse {body : List Token} {eof : Token} (hbody : NoEnd body)
    (heof : eof.is .endOfText = true) (ref : RefId)
    (h : (parse (body ++ [eof]) ref).errors = #[]) :
    Program body (parse (body ++ [eof]) ref).program := by
  unfold parse at h ⊢
  have hne : body ++ [eof] ≠ [] := by simp
  generalize htokens : body ++ [eof] = tokens at h hne ⊢
  cases tokens with
  | nil => exact absurd rfl hne
  | cons first rest =>
    obtain ⟨program, s, hp⟩ := Parser.declarations_done (first :: rest) false
      ⟨first, first :: rest, ref, #[]⟩ rfl
    simp only [hp] at h ⊢
    obtain ⟨-, ts, hts, hd, hend⟩ := (soundStatements _).declarations false hp h
    simp only at hts
    rw [← append_end_eq hbody hd.noEnd heof (htokens.trans hts) (hend rfl)]
    exact hd

end Scriptlet.Grammar
