import Scriptlet.Proofs.Parser.Cursor
import Scriptlet.Proofs.Syntax.Like

/-!
# Parsing texts that differ in lines and in how they end

The parser looks at the kinds and texts of tokens, never at their lines, and it never looks at the
identities it gives. It reads nothing beyond the end of the text, and whether the end is marked by a
token or no token is left makes no difference to it but for the token at which an error is noticed. So
from states that are alike every rule goes the same way: it yields trees that are alike, notes the same
faults at tokens that answer each other, and leaves states that are alike (`Agrees`). One lemma says it
of sequencing, one of each action, and the rules follow.

There is one exception: an operand looks at the last token when none is left, and takes it if it is a
literal (`lastLiteral`). It never comes to that, because an operand is looked for only behind a symbol.
The rules that begin with an operand agree only from states that are *ready* for one (`State.Ready`),
and what is read before them makes the state ready (`Settles`).

Results:
* `parse_alike`: **texts that are alike are parsed alike**, from any identities on.
* `parse_like`: so are tokens that are alike.
-/

namespace Scriptlet

open List (Forall₂)

namespace Parser

/-- How two texts may differ: in the lines of their tokens, and in the tokens at which errors are
noticed. -/
structure Contrast where
  line : Nat → Nat → Prop
  token : Token → Token → Prop
  alike (t t' : Token) : t.Like line t' → token t t'

/-- Texts that differ in lines only. -/
def Contrast.ofLines (line : Nat → Nat → Prop) : Contrast := ⟨line, Token.Like line, fun _ _ h => h⟩

/-- The same fault, at tokens that answer each other. -/
structure Contrast.Error (C : Contrast) (e e' : SyntaxError) : Prop where
  token : C.token e.token e'.token
  fault : e.fault = e'.fault

theorem Contrast.Error.eq {C : Contrast} {e e' : SyntaxError} (h : C.Error e e')
    (heq : C.token e.token e'.token → e.token = e'.token) : e = e' := by
  obtain ⟨token, fault⟩ := e
  obtain ⟨htoken, hfault⟩ := h
  cases heq htoken
  cases hfault
  rfl

/-- **The texts are alike up to their ends**, after the tokens read last. Where both end, with a token
or without one, errors are noticed at tokens that answer each other. -/
inductive Ahead (C : Contrast) : Token → List Token → Token → List Token → Prop
  | ended {last last' : Token} {ts ts' : List Token} (hts : ∀ t ∈ ts.head?, t.is .endOfText = true)
      (hts' : ∀ t ∈ ts'.head?, t.is .endOfText = true) (hkind : last.kind = last'.kind)
      (htoken : C.token (ts.headD last) (ts'.headD last')) : Ahead C last ts last' ts'
  | cons {last last' t t' : Token} {ts ts' : List Token} (ht : t.Like C.line t')
      (h : Ahead C t ts t' ts') : Ahead C last (t :: ts) last' (t' :: ts')

/-- States with texts before them that are alike and the same errors noted. The identities to be given
next do not matter. -/
structure State.Like (C : Contrast) (s s' : State) : Prop where
  ahead : Ahead C s.last s.rest s'.last s'.rest
  errors : Forall₂ C.Error s.errors.toList s'.errors.toList

/-- Where the text ends, the token read last is no literal. -/
def State.Ready (s : State) : Prop := s.atEnd = true → ∃ k, s.last.kind = .symbol k

/-- Results of the same sort that leave states behind which are alike. -/
inductive Result.Like (C : Contrast) {α β : Type} (V : α → β → Prop) : Result α → Result β → Prop
  | ok {a b s s'} (ha : V a b) (hs : State.Like C s s') : Like C V (.ok a s) (.ok b s')
  | fail {e e' s s'} (he : C.Error e e') (hs : State.Like C s s') :
    Like C V (.fail e s) (.fail e' s')
  | exhausted : Like C V .exhausted .exhausted

/-- **Two actions go the same way from states that are alike**, if necessary only from states that are
ready for an operand, and what they yield is related. -/
def Agrees (C : Contrast) (ready : Bool) {α β : Type} (V : α → β → Prop) (p : Parser α)
    (q : Parser β) : Prop :=
  ∀ ⦃s s' : State⦄, s.Like C s' → (ready = true → s.Ready) → (p s).Like C V (q s')

/-- The action makes the state ready for an operand. -/
def Settles {α : Type} (p : Parser α) : Prop := ∀ ⦃s : State⦄ ⦃a : α⦄ ⦃t : State⦄,
  p s = .ok a t → t.Ready

/-! ## Sequencing -/

section
variable {C : Contrast} {r : Bool} {α β γ δ : Type} {V : α → β → Prop} {W : γ → δ → Prop}

theorem Agrees.ready {p : Parser α} {q : Parser β} (h : Agrees C false V p q) : Agrees C r V p q :=
  fun _ _ hs _ => h hs nofun

/-- One action after the other; the first has to make the state ready if the second needs it. -/
theorem Agrees.bind {r' : Bool} {p : Parser α} {q : Parser β} {f : α → Parser γ} {g : β → Parser δ}
    (h : Agrees C r V p q) (hp : r' = true → Settles p)
    (hf : ∀ a b, V a b → Agrees C r' W (f a) (g b)) : Agrees C r W (p >>= f) (q >>= g) := by
  intro s s' hs hr
  have hx := h hs hr
  show Result.Like C W (Parser.bind p f s) (Parser.bind q g s')
  unfold Parser.bind
  generalize hps : p s = x at hx ⊢
  generalize q s' = x' at hx ⊢
  cases hx with
  | ok ha ht => exact hf _ _ ha ht fun hr' => hp hr' hps
  | fail he ht => exact .fail he ht
  | exhausted => exact .exhausted

theorem Agrees.seq {p : Parser α} {q : Parser β} {f : α → Parser γ} {g : β → Parser δ}
    (h : Agrees C r V p q) (hf : ∀ a b, V a b → Agrees C false W (f a) (g b)) :
    Agrees C r W (p >>= f) (q >>= g) := h.bind (fun h => absurd h Bool.false_ne_true) hf

/-- One action makes the state ready, and the other needs it. -/
theorem Agrees.seqReady {p : Parser α} {q : Parser β} {f : α → Parser γ} {g : β → Parser δ}
    (h : Agrees C r V p q) (hp : Settles p)
    (hf : ∀ a b, V a b → Agrees C true W (f a) (g b)) : Agrees C r W (p >>= f) (q >>= g) :=
  h.bind (fun _ => hp) hf

theorem agrees_pure {a : α} {b : β} (h : V a b) : Agrees C r V (pure a) (pure b) :=
  fun _ _ hs _ => .ok h hs

theorem Agrees.map {p : Parser α} {q : Parser β} {f : α → γ} {g : β → δ} (h : Agrees C r V p q)
    (hf : ∀ a b, V a b → W (f a) (g b)) : Agrees C r W (f <$> p) (g <$> q) :=
  h.seq fun a b hab => agrees_pure (hf a b hab)

theorem agrees_exhausted : Agrees C r V exhausted exhausted := fun _ _ _ _ => .exhausted

/-! ## Actions -/

theorem State.Like.peek {s s' : State} (hs : s.Like C s') : C.token s.peek s'.peek := by
  obtain ⟨last, rest, nextRef, errors⟩ := s
  obtain ⟨last', rest', nextRef', errors'⟩ := s'
  cases hs.ahead with
  | ended _ _ _ htoken => exact htoken
  | cons ht _ => exact C.alike _ _ ht

theorem State.Like.atEnd {s s' : State} (hs : s.Like C s') : s.atEnd = s'.atEnd := by
  obtain ⟨last, rest, nextRef, errors⟩ := s
  obtain ⟨last', rest', nextRef', errors'⟩ := s'
  unfold State.atEnd
  cases hs.ahead with
  | ended hts hts' _ _ => cases rest <;> cases rest' <;> simp_all
  | cons ht _ => exact ht.is _

theorem State.Like.note {s s' : State} {e e' : SyntaxError} (hs : s.Like C s') (he : C.Error e e') :
    (s.note e).Like C (s'.note e') := by
  refine ⟨hs.ahead, ?_⟩
  simp only [State.note, Array.toList_push]
  exact List.rel_append hs.errors (.cons he .nil)

theorem agrees_fail (fault : SyntaxFault) : Agrees C r V (fail fault) (fail fault) :=
  fun _ _ hs _ => .fail ⟨hs.peek, rfl⟩ hs

/-- Two actions note the same fault and do nothing else. -/
def Notes (C : Contrast) (o o' : Parser Unit) : Prop := ∀ ⦃s s' : State⦄, s.Like C s' →
  ∃ e e', C.Error e e' ∧ o s = .ok () (s.note e) ∧ o' s' = .ok () (s'.note e')

theorem notes_report {t t' : Token} (ht : t.Like C.line t') (fault : SyntaxFault) :
    Notes C (report t fault) (report t' fault) :=
  fun _ _ _ => ⟨⟨t, fault⟩, ⟨t', fault⟩, ⟨C.alike _ _ ht, rfl⟩, rfl, rfl⟩

theorem notes_reportHere (fault : SyntaxFault) : Notes C (reportHere fault) (reportHere fault) :=
  fun s s' hs => ⟨⟨s.peek, fault⟩, ⟨s'.peek, fault⟩, ⟨hs.peek, rfl⟩, rfl, rfl⟩

theorem Notes.seq {o o' : Parser Unit} {p : Parser α} {q : Parser β} (ho : Notes C o o')
    (h : Agrees C r V p q) : Agrees C r V (o >>= fun _ => p) (o' >>= fun _ => q) := by
  intro s s' hs hr
  obtain ⟨e, e', he, hnote, hnote'⟩ := ho hs
  rw [bind_of_ok hnote, bind_of_ok hnote']
  exact h (hs.note he) hr

/-- A fault is noted only under a condition, and then something follows. -/
theorem Notes.optionally {c c' : Prop} [Decidable c] [Decidable c'] {o o' : Parser Unit}
    {p : Parser α} {q : Parser β} (ho : Notes C o o') (hc : c ↔ c') (h : Agrees C r V p q) :
    Agrees C r V (if c then o >>= fun _ => p else p) (if c' then o' >>= fun _ => q else q) := by
  by_cases hc' : c'
  · rw [if_pos (hc.mpr hc'), if_pos hc']
    exact ho.seq h
  · rw [if_neg (mt hc.mp hc'), if_neg hc']
    exact h

/-- Identities are never looked at. -/
theorem agrees_freshRef : Agrees C r (fun _ _ => True) freshRef freshRef :=
  fun _ _ hs _ => .ok trivial ⟨hs.ahead, hs.errors⟩

/-- No symbol but the end of the text is seen where the text ends. -/
theorem not_is_of_ended {ts : List Token} (hts : ∀ t ∈ ts.head?, t.is .endOfText = true) {k : Symbol}
    (hk : k ≠ .endOfText) : ∀ t ∈ ts.head?, t.is k = false :=
  fun t ht => Token.is_ne (hts t ht) hk.symm

theorem State.Like.sees {s s' : State} (hs : s.Like C s') {k : Symbol} (hk : k ≠ .endOfText) :
    s.sees k = s'.sees k := by
  obtain ⟨last, rest, nextRef, errors⟩ := s
  obtain ⟨last', rest', nextRef', errors'⟩ := s'
  unfold State.sees
  cases hs.ahead with
  | ended hts hts' _ _ =>
    have h := not_is_of_ended hts hk
    have h' := not_is_of_ended hts' hk
    cases rest <;> cases rest' <;> simp_all
  | cons ht _ => exact ht.is _

/-- A look at the next token changes nothing. -/
theorem agrees_sees {k : Symbol} (hk : k ≠ .endOfText) {f : Bool → Parser γ} {g : Bool → Parser δ}
    (h : ∀ seen, Agrees C r W (f seen) (g seen)) :
    Agrees C r W (sees k >>= f) (sees k >>= g) := by
  intro s s' hs hr
  rw [bind_of_ok (show sees k s = .ok (s.sees k) s from rfl),
    bind_of_ok (show sees k s' = .ok (s'.sees k) s' from rfl), hs.sees hk]
  exact h _ hs hr

theorem ready_of_is {s : State} {k : Symbol} (h : s.last.is k = true) : s.Ready :=
  fun _ => ⟨k, of_decide_eq_true h⟩

/-- **A token that may be there, and what follows.** Behind it the state is ready for an operand; where
it is missing, the state is the same as before. -/
theorem agrees_acceptIf {q : Token → Bool} (hq : ∀ t t', t.Like C.line t' → q t = q t')
    (hsymbol : ∀ t, q t = true → ∃ k ≠ Symbol.endOfText, t.is k = true)
    {f : Option Token → Parser γ} {g : Option Token → Parser δ}
    (hnone : Agrees C r W (f none) (g none))
    (hsome : ∀ t t', t.Like C.line t' → Agrees C true W (f (some t)) (g (some t'))) :
    Agrees C r W (acceptIf q >>= f) (acceptIf q >>= g) := by
  have missing {ts : List Token} (hts : ∀ t ∈ ts.head?, t.is .endOfText = true) :
      ∀ t ∈ ts.head?, q t = false := by
    intro t ht
    by_contra h
    obtain ⟨k, hk, htk⟩ := hsymbol t (by simpa using h)
    rw [not_is_of_ended hts hk t ht] at htk
    cases htk
  have none_of {s : State} (h : ∀ t ∈ s.rest.head?, q t = false) : acceptIf q s = .ok none s := by
    cases hs : s.rest with
    | nil => exact acceptIf_nil hs
    | cons t rest =>
      rw [acceptIf_cons hs, h t (by rw [hs]; rfl)]
      rfl
  intro s s' hs hr
  obtain ⟨last, rest, nextRef, errors⟩ := s
  obtain ⟨last', rest', nextRef', errors'⟩ := s'
  cases hs.ahead with
  | ended hts hts' _ _ =>
    rw [bind_of_ok (none_of (missing hts)), bind_of_ok (none_of (missing hts'))]
    exact hnone hs hr
  | @cons _ _ t t' ts ts' ht h =>
    by_cases htq : q t = true
    · obtain ⟨k, -, htk⟩ := hsymbol t htq
      have hread : State.Like C ⟨t, ts, nextRef, errors⟩ ⟨t', ts', nextRef', errors'⟩ :=
        ⟨h, hs.errors⟩
      rw [bind_of_ok (a := some t) (by rw [acceptIf_cons rfl, if_pos htq]),
        bind_of_ok (a := some t') (by rw [acceptIf_cons rfl, if_pos (hq t t' ht ▸ htq)])]
      exact hsome t t' ht hread fun _ => ready_of_is htk
    · rw [bind_of_ok (a := none) (by rw [acceptIf_cons rfl, if_neg htq]),
        bind_of_ok (a := none) (by rw [acceptIf_cons rfl, if_neg (hq t t' ht ▸ htq)])]
      exact hnone hs hr

/-- The symbol `k` may be there. -/
theorem agrees_accept {k : Symbol} (hk : k ≠ .endOfText) {f : Option Token → Parser γ}
    {g : Option Token → Parser δ} (hnone : Agrees C r W (f none) (g none))
    (hsome : ∀ t t', t.Like C.line t' → Agrees C true W (f (some t)) (g (some t'))) :
    Agrees C r W (accept k >>= f) (accept k >>= g) :=
  agrees_acceptIf (fun _ _ ht => ht.is k) (fun _ ht => ⟨k, hk, ht⟩) hnone hsome

/-- Behind a symbol that had to be there an operand may follow. -/
theorem settles_expect {k : Symbol} {fault : SyntaxFault} : Settles (expect k fault) := by
  intro s t u hok
  rcases expect_cases k fault s with ⟨e, h⟩ | ⟨t', rest, -, ht', h⟩
  · rw [h] at hok
    cases hok
  · rw [h] at hok
    cases hok
    exact ready_of_is ht'

/-- The symbol `k` has to be there, and what follows may begin with an operand. -/
theorem agrees_expect {k : Symbol} (hk : k ≠ .endOfText) {fault : SyntaxFault}
    {f : Token → Parser γ} {g : Token → Parser δ}
    (hf : ∀ t t', t.Like C.line t' → Agrees C true W (f t) (g t')) :
    Agrees C r W (expect k fault >>= f) (expect k fault >>= g) := by
  have hread : Agrees C r (Token.Like C.line) (expect k fault) (expect k fault) :=
    agrees_accept hk (agrees_fail fault) fun _ _ ht => agrees_pure ht
  exact hread.seqReady settles_expect hf

/-- Recovery skips the same tokens. -/
theorem Ahead.skipFrom {last last' : Token} {ts ts' : List Token} (h : Ahead C last ts last' ts')
    (hlast : last.Like C.line last') :
    Ahead C (State.skipFrom last ts).1 (State.skipFrom last ts).2 (State.skipFrom last' ts').1
      (State.skipFrom last' ts').2 := by
  have stays {last : Token} {ts : List Token} (hts : ∀ t ∈ ts.head?, t.is .endOfText = true) :
      State.skipFrom last ts = (last, ts) := by
    cases ts with
    | nil => rfl
    | cons t ts => simp [State.skipFrom, hts t rfl]
  induction h with
  | ended hts hts' hkind htoken =>
    rw [stays hts, stays hts']
    exact .ended hts hts' hkind htoken
  | @cons last last' t t' ts ts' ht h ih =>
    have hstarts : State.startsStatement t = State.startsStatement t' := by
      simp only [State.startsStatement, ht.is]
    unfold State.skipFrom
    rw [ht.is, hlast.is, hstarts]
    split_ifs
    · exact .cons ht h
    · exact ih ht

theorem State.Like.synchronize {s s' : State} (hs : s.Like C s') :
    s.synchronize.Like C s'.synchronize := by
  by_cases hend : s.atEnd = true
  · rw [State.synchronize_atEnd hend, State.synchronize_atEnd (hs.atEnd ▸ hend)]
    exact hs
  · obtain ⟨last, rest, nextRef, errors⟩ := s
    obtain ⟨last', rest', nextRef', errors'⟩ := s'
    cases hs.ahead with
    | ended hts _ _ _ => cases rest <;> simp_all [State.atEnd]
    | cons ht h =>
      have hinside : _ = false := Bool.eq_false_iff.mpr hend
      rw [State.synchronize_eq rfl hinside, State.synchronize_eq rfl (ht.is _ ▸ hinside)]
      exact ⟨h.skipFrom ht, hs.errors⟩

theorem Agrees.recover {p q : Parser Stmt} {V : Stmt → Stmt → Prop} (h : Agrees C r V p q) :
    Agrees C r (Option.Rel V) (recover p) (recover q) := by
  intro s s' hs hr
  have hx := h hs hr
  unfold Parser.recover
  generalize p s = x at hx ⊢
  generalize q s' = x' at hx ⊢
  cases hx with
  | ok ha ht => exact .ok (.some ha) ht
  | fail he ht => exact .ok .none (ht.note he).synchronize
  | exhausted => exact .exhausted

end

/-! ## The rules for expressions -/

section Rules

variable {C : Contrast} {n : Nat}

theorem Level.join_like {P : Pairing} (l : Level) {e e' r r' : Expr} {op op' : Token}
    (he : e.Like P e') (hop : op.Like P.line op') (hr : r.Like P r') :
    (l.join e op r).Like P (l.join e' op' r') := by
  cases l with
  | or => exact .logical he hop hr
  | and => exact .logical he hop hr
  | equality => exact .binary he hop hr
  | comparison => exact .binary he hop hr
  | term => exact .binary he hop hr
  | factor => exact .binary he hop hr

/-- The rules for expressions that are granted `n` steps yield trees that are alike. All but those that
go on behind an operand begin with one. -/
structure AgreeExpressions (C : Contrast) (n : Nat) : Prop where
  expression : Agrees C true (Expr.Like (.ofLines C.line)) (expression n) (expression n)
  level (l : Level) : Agrees C true (Expr.Like (.ofLines C.line)) (level n l) (level n l)
  operand (l : Level) : Agrees C true (Expr.Like (.ofLines C.line)) (operand n l) (operand n l)
  more (l : Level) {e e' : Expr} (he : e.Like (.ofLines C.line) e') :
    Agrees C false (Expr.Like (.ofLines C.line)) (more n l e) (more n l e')
  unary : Agrees C true (Expr.Like (.ofLines C.line)) (unary n) (unary n)
  call : Agrees C true (Expr.Like (.ofLines C.line)) (call n) (call n)
  suffixes {e e' : Expr} (he : e.Like (.ofLines C.line) e') :
    Agrees C false (Expr.Like (.ofLines C.line)) (suffixes n e) (suffixes n e')
  arguments (k : Nat) :
    Agrees C true (Forall₂ (Expr.Like (.ofLines C.line))) (arguments n k) (arguments n k)
  primary : Agrees C true (Expr.Like (.ofLines C.line)) (primary n) (primary n)

theorem agrees_expression (ih : AgreeExpressions C n) :
    Agrees C true (Expr.Like (.ofLines C.line)) (expression (n + 1)) (expression (n + 1)) := by
  unfold expression
  refine (ih.level _).seq fun target target' htarget =>
    agrees_accept (by decide) (agrees_pure htarget) fun equals equals' heq => ?_
  refine ih.expression.seq fun value value' hvalue => ?_
  have hother := htarget
  cases htarget
  case var hname =>
    exact agrees_freshRef.seq fun _ _ _ => agrees_pure (.assign trivial hname hvalue)
  case get hobject hname => exact agrees_pure (.set hobject hname hvalue)
  all_goals exact (notes_report heq _).seq (agrees_pure hother)

theorem agrees_suffixes (ih : AgreeExpressions C n) {e e' : Expr}
    (he : e.Like (.ofLines C.line) e') :
    Agrees C false (Expr.Like (.ofLines C.line)) (suffixes (n + 1) e) (suffixes (n + 1) e') := by
  have applied {args args' : List Expr} (hargs : Forall₂ (Expr.Like (.ofLines C.line)) args args') :
      Agrees C false (Expr.Like (.ofLines C.line))
        (do let paren ← expect .rightParen .unclosedArguments
            suffixes n (.call e paren args))
        (do let paren ← expect .rightParen .unclosedArguments
            suffixes n (.call e' paren args')) :=
    agrees_expect (by decide) fun _ _ hparen => (ih.suffixes (.call he hparen hargs)).ready
  unfold suffixes
  refine agrees_accept (by decide) ?_ fun _ _ _ => ?_
  · refine agrees_accept (by decide) (agrees_pure he) fun _ _ _ => ?_
    refine agrees_expect (by decide) fun name name' hname => ?_
    exact (notes_report hname _).optionally (by rw [hname.lexeme]) (ih.suffixes (.get he hname)).ready
  · refine agrees_sees (by decide) fun empty => ?_
    cases empty with
    | true => exact (agrees_pure .nil).seq fun _ _ hargs => applied hargs
    | false => exact (ih.arguments 0).seq fun _ _ hargs => applied hargs

theorem agrees_arguments (ih : AgreeExpressions C n) (k : Nat) :
    Agrees C true (Forall₂ (Expr.Like (.ofLines C.line))) (arguments (n + 1) k)
      (arguments (n + 1) k) := by
  unfold arguments
  refine (notes_reportHere _).optionally Iff.rfl (ih.expression.seq fun arg arg' harg => ?_)
  refine agrees_accept (by decide) (agrees_pure (.cons harg .nil)) fun _ _ _ => ?_
  exact (ih.arguments _).seq fun _ _ hargs => agrees_pure (.cons harg hargs)

theorem agrees_superAccess {keyword keyword' : Token} (h : keyword.Like C.line keyword') :
    Agrees C false (Expr.Like (.ofLines C.line)) (superAccess keyword) (superAccess keyword') :=
  agrees_expect (by decide) fun _ _ _ => agrees_expect (by decide) fun _ _ hmethod =>
    agrees_freshRef.seq fun _ _ _ => agrees_pure (.super trivial h hmethod)

/-- Where the text ends there is no operand. -/
theorem primary_ended {s : State} (hend : s.atEnd = true) (hready : s.Ready) :
    primary (n + 1) s = fail .noExpression s := by
  obtain ⟨k, hk⟩ := hready hend
  unfold State.atEnd at hend
  unfold primary
  cases hs : s.rest with
  | nil => simp only [lastLiteral, hk]
  | cons t rest =>
    rw [hs] at hend
    have hkind : t.kind = .symbol .endOfText := of_decide_eq_true hend
    simp only [hkind]

theorem agrees_primary (ih : AgreeExpressions C n) :
    Agrees C true (Expr.Like (.ofLines C.line)) (primary (n + 1)) (primary (n + 1)) := by
  intro s s' hs hr
  obtain ⟨last, rest, nextRef, errors⟩ := s
  obtain ⟨last', rest', nextRef', errors'⟩ := s'
  have hahead := hs.ahead
  cases hahead with
  | ended hts hts' hkind htoken =>
    have hend : State.atEnd ⟨last, rest, nextRef, errors⟩ = true := by
      cases rest <;> simp_all [State.atEnd]
    have hready : State.Ready ⟨last', rest', nextRef', errors'⟩ := fun _ =>
      (hr rfl hend).imp fun k hk => hkind.symm.trans hk
    rw [primary_ended hend (hr rfl), primary_ended (hs.atEnd ▸ hend) hready]
    exact agrees_fail (r := false) _ hs fun h => (Bool.false_ne_true h).elim
  | @cons _ _ t t' rest rest' ht h =>
    have hread : State.Like C ⟨t, rest, nextRef, errors⟩ ⟨t', rest', nextRef', errors'⟩ :=
      ⟨h, hs.errors⟩
    have hready {k : Symbol} (hk : t.kind = .symbol k) :
        State.Ready ⟨t, rest, nextRef, errors⟩ := fun _ => ⟨k, hk⟩
    have group : Agrees C true (Expr.Like (.ofLines C.line))
        (do let inner ← expression n
            let _ ← expect .rightParen .unclosedGroup
            return Expr.group inner)
        (do let inner ← expression n
            let _ ← expect .rightParen .unclosedGroup
            return Expr.group inner) :=
      ih.expression.seq fun _ _ he => agrees_expect (by decide) fun _ _ _ => agrees_pure (.group he)
    unfold primary
    dsimp only
    rw [← ht.kind]
    split
    · exact .ok (.literal _) hread
    · exact .ok (.literal _) hread
    · exact .ok (.literal _) hread
    · exact .ok (.literal _) hread
    · exact .ok (.literal _) hread
    · exact .ok (.literal _) hread
    · exact agrees_superAccess ht hread fun h => (Bool.false_ne_true h).elim
    · exact .ok (.this trivial ht) ⟨h, hs.errors⟩
    · exact .ok (.var trivial ht) ⟨h, hs.errors⟩
    · next hk => exact group hread fun _ => hready hk
    · next hk => exact ih.call hread fun _ => hready hk
    · exact agrees_fail (r := false) _ hs fun h => (Bool.false_ne_true h).elim

/-- **The rules for expressions yield trees that are alike**, by induction on the steps. -/
theorem agreeExpressions (C : Contrast) : ∀ n, AgreeExpressions C n
  | 0 =>
    { expression := agrees_exhausted
      level := fun _ => agrees_exhausted
      operand := fun _ => agrees_exhausted
      more := fun _ _ _ _ => agrees_exhausted
      unary := agrees_exhausted
      call := agrees_exhausted
      suffixes := fun _ => agrees_exhausted
      arguments := fun _ => agrees_exhausted
      primary := agrees_exhausted }
  | n + 1 => by
    have ih := agreeExpressions C n
    refine ⟨agrees_expression ih, fun l => ?_, fun l => ?_, fun l e e' he => ?_, ?_, ?_,
      agrees_suffixes ih, agrees_arguments ih, agrees_primary ih⟩
    · unfold level
      exact (ih.operand l).seq fun _ _ hleft => ih.more l hleft
    · unfold operand
      cases l.tighter with
      | some l' => exact ih.level l'
      | none => exact ih.unary
    · unfold more
      refine agrees_acceptIf (fun t t' ht => ?_) (fun _ => Level.operator_is) (agrees_pure he)
        fun op op' hop => ?_
      · exact congrArg (l.operators.any ·) (funext ht.is)
      · exact (ih.operand l).seq fun _ _ hright => ih.more l (Level.join_like l he hop hright)
    · unfold unary
      refine agrees_acceptIf (fun t t' ht => ?_) (fun t ht => ?_) ih.call fun op op' hop => ?_
      · rw [ht.is, ht.is]
      · rcases Bool.or_eq_true_iff.mp ht with h | h
        · exact ⟨_, by decide, h⟩
        · exact ⟨_, by decide, h⟩
      · exact ih.unary.seq fun _ _ he => agrees_pure (.unary hop he)
    · unfold call
      exact ih.primary.seq fun _ _ hcallee => ih.suffixes hcallee

end Rules

/-! ## The rules for statements -/

section Rules

variable {C : Contrast} {n : Nat}

theorem forLoop_like {P : Pairing} {init init' : Option Stmt} {cond cond' step step' : Option Expr}
    {body body' : Stmt} (hinit : Option.Rel (Stmt.Like P) init init')
    (hcond : Option.Rel (Expr.Like P) cond cond') (hstep : Option.Rel (Expr.Like P) step step')
    (hbody : body.Like P body') :
    (forLoop init cond step body).Like P (forLoop init' cond' step' body') := by
  have hcond' : (cond.getD (.literal (.bool true))).Like P (cond'.getD (.literal (.bool true))) := by
    cases hcond with
    | none => exact .literal _
    | some h => exact h
  have unstepped {b b' : Stmt} (hb : b.Like P b') :
      (forLoop init cond none b).Like P (forLoop init' cond' none b') := by
    cases hinit with
    | none => exact .loop hcond' hb
    | some h => exact .block (.cons h (.cons (.loop hcond' hb) .nil))
  cases hstep with
  | none => exact unstepped hbody
  | some h => exact unstepped (.block (.cons hbody (.cons (.expr h) .nil)))

theorem agrees_parameters : ∀ n k,
    Agrees C false (Forall₂ (Token.Like C.line)) (parameters n k) (parameters n k)
  | 0, _ => agrees_exhausted
  | n + 1, k => by
    unfold parameters
    refine (notes_reportHere _).optionally Iff.rfl ?_
    refine agrees_expect (by decide) fun param param' hparam => ?_
    refine agrees_accept (by decide) (agrees_pure (.cons hparam .nil)) fun _ _ _ => ?_
    exact (agrees_parameters n _).ready.seq fun _ _ h => agrees_pure (.cons hparam h)

theorem agrees_nameAfter {k : Symbol} (hk : k ≠ .endOfText) (fault : SyntaxFault) :
    Agrees C false (Option.Rel (Token.Like C.line)) (nameAfter k fault) (nameAfter k fault) := by
  unfold nameAfter
  refine agrees_accept hk (agrees_pure .none) fun _ _ _ => ?_
  exact agrees_expect (by decide) fun _ _ hname => agrees_pure (.some hname)

theorem agrees_superclass :
    Agrees C false (Option.Rel (Superclass.Like (.ofLines C.line))) superclass superclass := by
  unfold superclass
  refine (agrees_nameAfter (by decide) _).seq fun o o' ho => ?_
  cases ho with
  | some hname => exact agrees_freshRef.seq fun _ _ _ => agrees_pure (.some ⟨trivial, hname⟩)
  | none => exact agrees_pure .none

theorem agrees_expressionUnless (n : Nat) {k : Symbol} (hk : k ≠ .endOfText) :
    Agrees C true (Option.Rel (Expr.Like (.ofLines C.line))) (expressionUnless n k)
      (expressionUnless n k) := by
  unfold expressionUnless
  refine agrees_sees hk fun seen => ?_
  cases seen with
  | true => exact agrees_pure .none
  | false => exact (agreeExpressions C n).expression.seq fun _ _ he => agrees_pure (.some he)

theorem agrees_letDeclaration (n : Nat) :
    Agrees C false (Stmt.Like (.ofLines C.line)) (letDeclaration n) (letDeclaration n) := by
  have closed {name name' : Token} {init init' : Option Expr} (hname : name.Like C.line name')
      (hinit : Option.Rel (Expr.Like (.ofLines C.line)) init init') :
      Agrees C false (Stmt.Like (.ofLines C.line))
        (do let _ ← expect .semicolon .unclosedDeclaration
            return Stmt.declare name init)
        (do let _ ← expect .semicolon .unclosedDeclaration
            return Stmt.declare name' init') :=
    agrees_expect (by decide) fun _ _ _ => agrees_pure (.declare hname hinit)
  have initial : Agrees C true (Option.Rel (Expr.Like (.ofLines C.line))) (some <$> expression n)
      (some <$> expression n) :=
    (agreeExpressions C n).expression.map fun _ _ he => .some he
  unfold letDeclaration
  refine agrees_expect (by decide) fun name name' hname => ?_
  refine agrees_accept (by decide) ?_ fun _ _ _ => ?_
  · exact (agrees_pure .none).seq fun _ _ hinit => closed hname hinit
  · exact initial.seq fun _ _ hinit => closed hname hinit

theorem agrees_expressionStatement (n : Nat) :
    Agrees C true (Stmt.Like (.ofLines C.line)) (expressionStatement n) (expressionStatement n) :=
  (agreeExpressions C n).expression.seq fun _ _ he => agrees_expect (by decide) fun _ _ _ =>
    agrees_pure (.expr he)

theorem agrees_returnStatement (n : Nat) {t t' : Token} (ht : t.Like C.line t') :
    Agrees C true (Stmt.Like (.ofLines C.line)) (returnStatement n t) (returnStatement n t') :=
  (agrees_expressionUnless n (by decide)).seq fun _ _ hvalue =>
    agrees_expect (by decide) fun _ _ _ => agrees_pure (.ret ht hvalue)

theorem agrees_forInit (n : Nat) :
    Agrees C true (Option.Rel (Stmt.Like (.ofLines C.line))) (forInit n) (forInit n) := by
  unfold forInit
  refine agrees_accept (by decide) ?_ fun _ _ _ => agrees_pure .none
  refine agrees_accept (by decide) ?_ fun _ _ _ => ?_
  · exact (agrees_expressionStatement n).map fun _ _ h => .some h
  · exact (agrees_letDeclaration n).ready.map fun _ _ h => .some h

/-! ### The first clause of a loop ends with a semicolon -/

theorem Settles.seq {α β : Type} {p : Parser α} {f : α → Parser β} (h : ∀ a, Settles (f a)) :
    Settles (p >>= f) := by
  intro s b t hok
  obtain ⟨a, u, -, hok⟩ := bind_eq_ok.mp hok
  exact h a hok

theorem Settles.map {α β : Type} {p : Parser α} {f : α → β} (h : Settles p) :
    Settles (f <$> p) := by
  intro s b t hok
  obtain ⟨a, hok, -⟩ := map_eq_ok.mp hok
  exact h hok

theorem settles_letDeclaration (n : Nat) : Settles (letDeclaration n) := by
  unfold letDeclaration
  refine .seq fun name => .seq fun o => ?_
  cases o with
  | some _ => exact .seq fun init => settles_expect.map (f := fun _ => Stmt.declare name init)
  | none => exact .seq fun init => settles_expect.map (f := fun _ => Stmt.declare name init)

theorem settles_expressionStatement (n : Nat) : Settles (expressionStatement n) :=
  .seq fun e => settles_expect.map (f := fun _ => Stmt.expr e)

theorem settles_forInit (n : Nat) : Settles (forInit n) := by
  intro s o t hok
  unfold forInit at hok
  obtain ⟨first, u, haccept, hok⟩ := bind_eq_ok.mp hok
  cases first with
  | some semicolon =>
    have hexpect : expect .semicolon .unclosedExpression s = .ok semicolon u := bind_of_ok haccept
    cases hok
    exact settles_expect hexpect
  | none =>
    obtain ⟨first, v, -, hok⟩ := bind_eq_ok.mp hok
    cases first with
    | some _ => exact (settles_letDeclaration n).map hok
    | none => exact (settles_expressionStatement n).map hok

/-- The rules for statements that are granted `n` steps yield trees that are alike. Only a statement may
begin with an operand. -/
structure AgreeStatements (C : Contrast) (n : Nat) : Prop where
  declarations (b : Bool) :
    Agrees C false (Forall₂ (Stmt.Like (.ofLines C.line))) (declarations n b) (declarations n b)
  declaration : Agrees C true (Stmt.Like (.ofLines C.line)) (declaration n) (declaration n)
  classDeclaration :
    Agrees C false (Stmt.Like (.ofLines C.line)) (classDeclaration n) (classDeclaration n)
  methods : Agrees C false (Forall₂ (FunctionDecl.Like (.ofLines C.line))) (methods n) (methods n)
  function (form : FunctionForm) :
    Agrees C false (FunctionDecl.Like (.ofLines C.line)) (function n form) (function n form)
  block : Agrees C false (Forall₂ (Stmt.Like (.ofLines C.line))) (block n) (block n)
  statement : Agrees C true (Stmt.Like (.ofLines C.line)) (statement n) (statement n)
  forStatement : Agrees C false (Stmt.Like (.ofLines C.line)) (forStatement n) (forStatement n)
  ifStatement : Agrees C false (Stmt.Like (.ofLines C.line)) (ifStatement n) (ifStatement n)
  whileStatement :
    Agrees C false (Stmt.Like (.ofLines C.line)) (whileStatement n) (whileStatement n)

/-- A declaration is tried only where the text does not end, so that the state is ready. -/
theorem agrees_declarations (ih : AgreeStatements C n) (b : Bool) :
    Agrees C false (Forall₂ (Stmt.Like (.ofLines C.line))) (declarations (n + 1) b)
      (declarations (n + 1) b) := by
  intro s s' hs _
  unfold declarations
  rw [bind_of_ok (show atEnd s = .ok s.atEnd s from rfl),
    bind_of_ok (show atEnd s' = .ok s'.atEnd s' from rfl),
    bind_of_ok (show sees .rightBrace s = .ok _ s from rfl),
    bind_of_ok (show sees .rightBrace s' = .ok _ s' from rfl), ← hs.atEnd, ← hs.sees (by decide)]
  split_ifs with hclosed
  · exact .ok .nil hs
  have hready : s.Ready := fun hend => absurd (by rw [hend, Bool.true_or]) hclosed
  refine ih.declaration.recover.seq (fun o o' ho => ?_) hs fun _ => hready
  cases ho with
  | some hd => exact (ih.declarations b).seq fun _ _ hds => agrees_pure (.cons hd hds)
  | none => exact ih.declarations b

theorem agrees_declaration (ih : AgreeStatements C n) :
    Agrees C true (Stmt.Like (.ofLines C.line)) (declaration (n + 1)) (declaration (n + 1)) := by
  unfold declaration
  refine agrees_accept (by decide) ?_ fun _ _ _ => ih.classDeclaration.ready
  refine agrees_accept (by decide) ?_ fun _ _ _ =>
    (ih.function _).ready.seq fun _ _ hd => agrees_pure (.function hd)
  exact agrees_accept (by decide) ih.statement fun _ _ _ => (agrees_letDeclaration n).ready

theorem agrees_statement (ih : AgreeStatements C n) :
    Agrees C true (Stmt.Like (.ofLines C.line)) (statement (n + 1)) (statement (n + 1)) := by
  unfold statement
  refine agrees_accept (by decide) ?_ fun _ _ _ => ih.forStatement.ready
  refine agrees_accept (by decide) ?_ fun _ _ _ => ih.ifStatement.ready
  refine agrees_accept (by decide) ?_ fun _ _ ht => agrees_returnStatement n ht
  refine agrees_accept (by decide) ?_ fun _ _ _ => ih.whileStatement.ready
  refine agrees_accept (by decide) (agrees_expressionStatement n) fun _ _ _ => ?_
  exact ih.block.ready.seq fun _ _ hbody => agrees_pure (.block hbody)

theorem agrees_function (ih : AgreeStatements C n) (form : FunctionForm) :
    Agrees C false (FunctionDecl.Like (.ofLines C.line)) (function (n + 1) form)
      (function (n + 1) form) := by
  have rest {name name' : Token} {params params' : List Token} (hname : name.Like C.line name')
      (hparams : Forall₂ (Token.Like C.line) params params') :
      Agrees C false (FunctionDecl.Like (.ofLines C.line))
        (do let _ ← expect .rightParen .unclosedParameters
            let _ ← expect .leftBrace (.noFunctionBody form)
            let body ← block n
            return FunctionDecl.mk name params body)
        (do let _ ← expect .rightParen .unclosedParameters
            let _ ← expect .leftBrace (.noFunctionBody form)
            let body ← block n
            return FunctionDecl.mk name' params' body) :=
    agrees_expect (by decide) fun _ _ _ => agrees_expect (by decide) fun _ _ _ =>
      ih.block.ready.seq fun _ _ hbody => agrees_pure (.mk hname hparams hbody)
  unfold function
  refine agrees_expect (by decide) fun name name' hname => ?_
  refine agrees_expect (by decide) fun _ _ _ => agrees_sees (by decide) fun empty => ?_
  cases empty with
  | true => exact (agrees_pure .nil).seq fun _ _ hparams => rest hname hparams
  | false => exact (agrees_parameters n 0).ready.seq fun _ _ hparams => rest hname hparams

theorem agrees_methods (ih : AgreeStatements C n) :
    Agrees C false (Forall₂ (FunctionDecl.Like (.ofLines C.line))) (methods (n + 1))
      (methods (n + 1)) := by
  intro s s' hs hr
  unfold methods
  rw [bind_of_ok (show sees .rightBrace s = .ok _ s from rfl),
    bind_of_ok (show sees .rightBrace s' = .ok _ s' from rfl),
    bind_of_ok (show atEnd s = .ok s.atEnd s from rfl),
    bind_of_ok (show atEnd s' = .ok s'.atEnd s' from rfl), ← hs.atEnd, ← hs.sees (by decide)]
  split_ifs
  · exact .ok .nil hs
  refine (ih.function _).seq (fun _ _ hd => ?_) hs hr
  exact ih.methods.seq fun _ _ hds => agrees_pure (.cons hd hds)

theorem agrees_forStatement (ih : AgreeStatements C n) :
    Agrees C false (Stmt.Like (.ofLines C.line)) (forStatement (n + 1)) (forStatement (n + 1)) := by
  unfold forStatement
  refine agrees_expect (by decide) fun _ _ _ => ?_
  refine (agrees_forInit n).seqReady (settles_forInit n) fun _ _ hinit => ?_
  refine (agrees_expressionUnless n (by decide)).seq fun _ _ hcond => ?_
  refine agrees_expect (by decide) fun _ _ _ => ?_
  refine (agrees_expressionUnless n (by decide)).seq fun _ _ hstep => ?_
  refine agrees_expect (by decide) fun _ _ _ => ?_
  exact ih.statement.seq fun _ _ hbody => agrees_pure (forLoop_like hinit hcond hstep hbody)

theorem agrees_ifStatement (ih : AgreeStatements C n) :
    Agrees C false (Stmt.Like (.ofLines C.line)) (ifStatement (n + 1)) (ifStatement (n + 1)) := by
  unfold ifStatement
  refine agrees_expect (by decide) fun _ _ _ => (agreeExpressions C n).expression.seq fun _ _ hcond =>
    agrees_expect (by decide) fun _ _ _ => ih.statement.seq fun _ _ hthen => ?_
  refine agrees_accept (by decide) (agrees_pure (.branch hcond hthen .none)) fun _ _ _ => ?_
  exact ih.statement.seq fun _ _ helse => agrees_pure (.branch hcond hthen (.some helse))

/-- **The rules for statements yield trees that are alike**, by induction on the steps. -/
theorem agreeStatements (C : Contrast) : ∀ n, AgreeStatements C n
  | 0 =>
    { declarations := fun _ => agrees_exhausted
      declaration := agrees_exhausted
      classDeclaration := agrees_exhausted
      methods := agrees_exhausted
      function := fun _ => agrees_exhausted
      block := agrees_exhausted
      statement := agrees_exhausted
      forStatement := agrees_exhausted
      ifStatement := agrees_exhausted
      whileStatement := agrees_exhausted }
  | n + 1 => by
    have ih := agreeStatements C n
    refine ⟨agrees_declarations ih, agrees_declaration ih, ?_, agrees_methods ih,
      agrees_function ih, ?_, agrees_statement ih, agrees_forStatement ih, agrees_ifStatement ih, ?_⟩
    · unfold classDeclaration
      refine agrees_expect (by decide) fun _ _ hname => ?_
      refine agrees_superclass.ready.seq fun _ _ hsuperclass => ?_
      refine (agrees_nameAfter (by decide) _).seq fun _ _ hinterface => ?_
      refine agrees_expect (by decide) fun _ _ _ => ?_
      exact ih.methods.ready.seq fun _ _ hmethods => agrees_expect (by decide) fun _ _ _ =>
        agrees_pure (.classDecl (.mk hname hsuperclass hinterface hmethods))
    · unfold block
      exact (ih.declarations true).seq fun _ _ hds =>
        agrees_expect (by decide) fun _ _ _ => agrees_pure hds
    · unfold whileStatement
      refine agrees_expect (by decide) fun _ _ _ => ?_
      refine (agreeExpressions C n).expression.seq fun _ _ hcond => ?_
      exact agrees_expect (by decide) fun _ _ _ =>
        ih.statement.seq fun _ _ hbody => agrees_pure (.loop hcond hbody)

end Rules

end Parser

/-- **Texts that are alike are parsed alike**: into trees that are alike and with the same faults at
tokens that answer each other, whatever identities the references get. -/
theorem parse_alike {C : Parser.Contrast} {ts ts' : List Token} {first first' : Token}
    (hts : ts.head? = some first) (hts' : ts'.head? = some first')
    (h : Parser.Ahead C first ts first' ts') (ref ref' : RefId) :
    Forall₂ (Stmt.Like (.ofLines C.line)) (parse ts ref).program (parse ts' ref').program ∧
      Forall₂ C.Error (parse ts ref).errors.toList (parse ts' ref').errors.toList := by
  obtain ⟨rest, rfl⟩ := List.head?_eq_some_iff.mp hts
  obtain ⟨rest', rfl⟩ := List.head?_eq_some_iff.mp hts'
  obtain ⟨program, s, hp⟩ := Parser.declarations_done (first :: rest) false
    ⟨first, first :: rest, ref, #[]⟩ rfl
  have hs : Parser.State.Like C ⟨first, first :: rest, ref, #[]⟩
      ⟨first', first' :: rest', ref', #[]⟩ := ⟨h, .nil⟩
  have hr := (Parser.agreeStatements C (Parser.steps (first :: rest))).declarations false hs nofun
  rw [hp] at hr
  generalize hq : Parser.declarations (Parser.steps (first :: rest)) false
    ⟨first', first' :: rest', ref', #[]⟩ = r at hr
  cases hr with
  | ok hprogram hs =>
    rw [parse_of_declarations hp, parse_of_declarations hq]
    exact ⟨hprogram, hs.errors⟩

theorem Parser.ahead_ofLines {line : Nat → Nat → Prop} {ts ts' : List Token}
    (h : Forall₂ (Token.Like line) ts ts') {last last' : Token} (hlast : last.Like line last') :
    Ahead (.ofLines line) last ts last' ts' := by
  induction h generalizing last last' with
  | nil => exact .ended nofun nofun hlast.kind hlast
  | cons ht _ ih => exact .cons ht (ih ht)

/-- **Tokens that are alike are parsed alike**, with the same faults at tokens that are alike. -/
theorem parse_like {line : Nat → Nat → Prop} {ts ts' : List Token}
    (h : Forall₂ (Token.Like line) ts ts') (ref ref' : RefId) :
    Forall₂ (Stmt.Like (.ofLines line)) (parse ts ref).program (parse ts' ref').program ∧
      Forall₂ (Parser.Contrast.ofLines line).Error (parse ts ref).errors.toList
        (parse ts' ref').errors.toList := by
  cases h with
  | nil => exact ⟨.nil, .nil⟩
  | cons ht hts => exact parse_alike rfl rfl (Parser.ahead_ofLines (.cons ht hts) ht) ref ref'

end Scriptlet
