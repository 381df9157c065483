import Scriptlet.Proofs.Run.Current
import Scriptlet.Proofs.Run.Plan
import Scriptlet.Proofs.Scope.Returnless

/-!
# `return` on its way out

Statements run in each other (`Encloses`), through blocks, branches and loops, from the body of a call
inwards (`Within`). A `return` goes the same way outwards: each of them ends with it at once, whatever it
would have started next. That is said of the order in which a computation starts others
(`Moment.started`): the one that returns is the last.

Results:
* `Encloses.returns`: **statements hand a `return` on** and start nothing any more.
* `Starts.leaves`: **so the call whose body it stands in yields the value.**
* `Moment.Returns.inner`, `Task.Returnless.not_returns`: a `return` comes from a `return` statement that
  is executed, so returnless statements do not return.
* `Reaches.statement`: statements run at the top level of a program or in the body of a call.
-/

namespace Scriptlet.Run

open Exec
open Relation (ReflTransGen)

/-! ## Statements in statements -/

/-- The computation runs statements. -/
def Task.isStatement : Task → Bool
  | .exec _ | .execAll _ | .loop .. => true
  | _ => false

/-- Statements that run statements which stand in them. -/
structure Encloses (σ : Scoping) (a b : Moment) : Prop where
  starts : Starts σ a b
  outer : a.task.isStatement = true
  inner : b.task.isStatement = true

/-- Statements anywhere in those that run, through blocks, branches and loops. -/
def Within (σ : Scoping) : Moment → Moment → Prop := ReflTransGen (Encloses σ)

/-- The statements end with `return` and the value. -/
def Moment.Returns (σ : Scoping) (a : Moment) (v : Value) (m' : Machine) : Prop :=
  match a.task with
  | .exec st => exec σ a.steps st a.machine = .ok (.returned v) m'
  | .execAll ss => execAll σ a.steps ss a.machine = .ok (.returned v) m'
  | .loop c b => loop σ a.steps c b a.machine = .ok (.returned v) m'
  | _ => False

/-- The value of a `return`: that of its expression, or `null` if it has none. -/
def ReturnValue (σ : Scoping) (n : Nat) (m : Machine) (value : Option Expr) (v : Value)
    (m' : Machine) : Prop :=
  match value with
  | none => v = .null ∧ m' = m
  | some e => eval σ n e m = .ok v m'

/-- **A `return` of the value leaves the call** in whose body it stands. -/
structure Leaves (σ : Scoping) (a : Moment) (fn : Function) (args : List Value) (c : Moment)
    (v : Value) (m' : Machine) : Prop where
  /-- The call yields the value. Nothing has changed since, but for the current frame. -/
  yields : Scriptlet.call σ a.steps fn args a.machine = .ok v { m' with current := a.machine.current }
  /-- The body is the last thing that the call starts. -/
  body (b : Moment) : Starts σ a b → Within σ b c → (a.started σ).getLast? = some b
  /-- What runs around the `return` is in each case the last thing that is started. -/
  last (b p q : Moment) : Starts σ a b → Within σ b p → Encloses σ p q → Within σ q c →
    (p.started σ).getLast? = some q

/-! ## The last thing a computation starts -/

/-- **The plan ends with this value, and the last thing it starts is this computation.** -/
structure Plan.EndsWith {α : Type} (r : (t : Task) → Exec t.Answer) (p : Plan α) (m : Machine)
    (value : α) (m' : Machine) (last : Task × Machine) : Prop where
  run : p.run r m = .ok value m'
  last : (p.started r m).getLast? = some last

namespace Plan.EndsWith

variable {α β : Type} {r : (t : Task) → Exec t.Answer} {m m₁ m' : Machine} {value : α}
  {last : Task × Machine} {t : Task}

theorem operate {x : Exec β} {next : β → Plan α} {v : β} (h : x m = .ok v m₁)
    (hrest : (next v).EndsWith r m₁ value m' last) :
    (Plan.operate x next).EndsWith r m value m' last :=
  ⟨(bind_of_ok h).trans hrest.run, by simp only [Plan.started, h, hrest.last]⟩

theorem use {next : t.Answer → Plan α} {v : t.Answer} (h : r t m = .ok v m₁)
    (hrest : (next v).EndsWith r m₁ value m' last) :
    (Plan.use t next).EndsWith r m value m' last := by
  refine ⟨(bind_of_ok h).trans hrest.run, ?_⟩
  simp only [Plan.started, h, List.getLast?_cons, hrest.last, Option.getD_some]

theorem here {next : t.Answer → Plan α} {v : t.Answer} (h : r t m = .ok v m')
    (hnext : next v = .done value) : (Plan.use t next).EndsWith r m value m' (t, m) := by
  refine ⟨(bind_of_ok h).trans (by rw [hnext]; rfl), ?_⟩
  simp only [Plan.started, h, hnext, List.getLast?_singleton]

theorem hereIn {frame : FrameId} {next : t.Answer → Plan α} {v : t.Answer}
    (h : inFrame frame (r t) m = .ok v m') (hnext : next v = .done value) :
    (Plan.useIn frame t next).EndsWith r m value m' (t, { m with current := frame }) := by
  refine ⟨(bind_of_ok h).trans (by rw [hnext]; rfl), ?_⟩
  simp only [Plan.started, h, hnext, List.getLast?_singleton]

end Plan.EndsWith

section
variable {σ : Scoping} {n : Nat} {a b c : Moment} {m m' : Machine} {v : Value}

theorem started_of_endsWith {t last : Task} {value : t.Answer} {m₁ : Machine}
    (hgrant : t.grant (n + 1) = some n)
    (h : (t.plan σ).EndsWith (Task.run σ n) m value m' (last, m₁)) :
    t.run σ (n + 1) m = .ok value m' ∧
      (Moment.started σ ⟨n + 1, t, m⟩).getLast? = some ⟨n, last, m₁⟩ := by
  refine ⟨?_, ?_⟩
  · rw [Task.run_eq]
    simp only [hgrant, h.run]
  · simp only [Moment.started, hgrant, List.getLast?_map, h.last, Option.map_some]

/-! ## On the way out -/

/-- The machine of a `return`, back in the frame it was in. -/
theorem Moment.Returns.current (h : a.Returns σ v m') : m'.current = a.machine.current := by
  refine Moment.restores (σ := σ) a ?_
  obtain ⟨n, t, m⟩ := a
  cases t with
  | exec | execAll | loop =>
    simp only [Moment.Returns] at h
    simp only [Moment.end?, h, Result.machine?]
  | _ => exact h.elim

theorem current_of_eval {e : Expr} {x : Value} (h : eval σ n e m = .ok x m') :
    m'.current = m.current :=
  Moment.restores (σ := σ) ⟨n, .eval e, m⟩ (by simp only [Moment.end?, h, Result.machine?])

theorem current_of_exec {st : Stmt} {flow : Flow} (h : exec σ n st m = .ok flow m') :
    m'.current = m.current :=
  Moment.restores (σ := σ) ⟨n, .exec st, m⟩ (by simp only [Moment.end?, h, Result.machine?])

/-- **Statements hand a `return` on**: those around them return the same value, from the frame they are
in, and start nothing any more. -/
theorem Encloses.returns (h : Encloses σ a b) (hb : b.Returns σ v m') :
    a.Returns σ v { m' with current := a.machine.current } ∧ (a.started σ).getLast? = some b := by
  obtain ⟨hstarts, ha, -⟩ := h
  have hsame {k : FrameId} (h : b.machine.current = k) : { m' with current := k } = m' := by
    rw [← h, ← hb.current]
  cases hstarts with
  | @block n body m frame m₁ hframe =>
    have hcurrent : m₁.current = m.current := by
      cases hframe
      rfl
    have hbody : inFrame frame (execAll σ n body) m₁ =
        .ok (.returned v) { m' with current := m.current } := by
      simp only [Moment.Returns] at hb
      simp only [inFrame, hb, hcurrent]
    exact started_of_endsWith (t := .exec (.block body)) rfl
      (.operate rfl (.operate hframe (.hereIn hbody rfl)))
  | @thenDo n c t o m x m₁ h hx =>
    rw [hsame (current_of_eval h)]
    refine started_of_endsWith (t := .exec (.branch c t o)) rfl (.use h ?_)
    rw [if_pos hx]
    exact .here hb rfl
  | @elseDo n c t e m x m₁ h hx =>
    rw [hsame (current_of_eval h)]
    refine started_of_endsWith (t := .exec (.branch c t (some e))) rfl (.use h ?_)
    rw [if_neg (by simp [hx])]
    exact .here hb rfl
  | @looping n c b m =>
    rw [hsame rfl]
    exact started_of_endsWith (t := .exec (.loop c b)) rfl (.here hb rfl)
  | @firstStmt n st ss m =>
    rw [hsame rfl]
    exact started_of_endsWith (t := .execAll (st :: ss)) rfl (.here hb rfl)
  | @otherStmts n st ss m m₁ h =>
    rw [hsame (current_of_exec h)]
    exact started_of_endsWith (t := .execAll (st :: ss)) rfl (.use h (.here hb rfl))
  | @loopBody n c b m x m₁ h hx =>
    rw [hsame (current_of_eval h)]
    refine started_of_endsWith (t := .loop c b) rfl (.use h ?_)
    rw [if_pos hx]
    exact .here hb rfl
  | @loopAgain n c b m x m₁ m₂ h hx h' =>
    rw [hsame ((current_of_exec h').trans (current_of_eval h))]
    refine started_of_endsWith (t := .loop c b) rfl (.use h ?_)
    rw [if_pos hx]
    exact .use h' (.here hb rfl)
  | _ => first | exact hb.elim | exact nomatch ha

/-- **From any depth**: what runs around a `return` returns the same value. -/
theorem Within.returns (h : Within σ a b) (hb : b.Returns σ v m') :
    a.Returns σ v { m' with current := a.machine.current } := by
  induction h using ReflTransGen.head_induction_on with
  | refl => rwa [← hb.current]
  | head hstep _ ih => exact (hstep.returns ih).1

/-- Nothing is started any more on the way out. -/
theorem Within.last (h : Within σ b c) (hc : c.Returns σ v m') (hab : Encloses σ a b) :
    (a.started σ).getLast? = some b := (hab.returns (h.returns hc)).2

/-- **A call yields what its body returns.** -/
theorem Starts.call_returns {fn : Function} {args : List Value} (ha : a.task = .call fn args)
    (h : Starts σ a b) (hb : b.Returns σ v m') :
    call σ a.steps fn args a.machine = .ok v { m' with current := a.machine.current } ∧
      (a.started σ).getLast? = some b := by
  cases h with
  | @body n fn' args' m frame m₁ hframe =>
    cases ha
    have hcurrent : m₁.current = m.current := by
      cases hframe
      rfl
    have hbody : inFrame frame (execAll σ n fn.decl.body) m₁ =
        .ok (.returned v) { m' with current := m.current } := by
      simp only [Moment.Returns] at hb
      simp only [inFrame, hb, hcurrent]
    exact started_of_endsWith (t := .call fn args) rfl (.operate hframe (.hereIn hbody rfl))
  | _ => cases ha

/-- **A `return` leaves the call** in whose body it stands. -/
theorem Starts.leaves {fn : Function} {args : List Value} (ha : a.task = .call fn args)
    (h : Starts σ a b) (hwithin : Within σ b c) (hc : c.Returns σ v m') :
    Leaves σ a fn args c v m' where
  yields := (h.call_returns ha (hwithin.returns hc)).1
  body _ hb hbc := (hb.call_returns ha (hbc.returns hc)).2
  last _ _ _ _ _ hpq hqc := hqc.last hc hpq

theorem returns_ret {keyword : Token} {value : Option Expr} :
    Moment.Returns σ ⟨n + 1, .exec (.ret keyword value), m⟩ v m' ↔
      ReturnValue σ n m value v m' := by
  simp only [Moment.Returns, exec, ReturnValue]
  cases value with
  | none =>
    constructor
    · rintro ⟨⟩
      exact ⟨rfl, rfl⟩
    · rintro ⟨rfl, rfl⟩
      rfl
  | some e =>
    constructor
    · intro h
      obtain ⟨x, m₁, hx, h⟩ := bind_eq_ok h
      cases h
      exact hx
    · intro h
      exact bind_of_ok h

/-! ## Where returning comes from -/

theorem Encloses.steps (h : Encloses σ a b) : a.steps = b.steps + 1 := by
  have hgrant := h.starts.plan.1
  obtain ⟨n, t, m⟩ := a
  obtain ⟨-, ha, -⟩ := h
  cases t with
  | exec | execAll | loop =>
    cases n with
    | zero => cases hgrant
    | succ n =>
      cases hgrant
      rfl
  | _ => cases ha

theorem returns_of_inFrame {frame : FrameId} {ss : List Stmt}
    (h : inFrame frame (execAll σ n ss) m = .ok (.returned v) m') :
    ∃ m₁, execAll σ n ss { m with current := frame } = .ok (.returned v) m₁ := by
  unfold inFrame at h
  cases hx : execAll σ n ss { m with current := frame } with
  | ok flow m₁ =>
    simp only [hx] at h
    cases h
    exact ⟨m₁, rfl⟩
  | _ =>
    simp only [hx] at h
    cases h

theorem inner_exec {st : Stmt} (h : exec σ (n + 1) st m = .ok (.returned v) m') :
    (∃ keyword value, st = .ret keyword value) ∨
      ∃ b m₁, Encloses σ ⟨n + 1, .exec st, m⟩ b ∧ b.Returns σ v m₁ := by
  cases st with
  | expr e =>
    obtain ⟨_, _, -, h⟩ := bind_eq_ok h
    cases h
  | declare name init =>
    cases init with
    | none =>
      obtain ⟨_, _, -, h⟩ := bind_eq_ok h
      cases h
    | some e =>
      obtain ⟨_, _, -, h⟩ := bind_eq_ok h
      obtain ⟨_, _, -, h⟩ := bind_eq_ok h
      cases h
  | block body =>
    obtain ⟨_, _, hcurrent, h⟩ := bind_eq_ok h
    cases hcurrent
    obtain ⟨frame, m₁, hframe, h⟩ := bind_eq_ok h
    obtain ⟨m₂, hbody⟩ := returns_of_inFrame h
    exact .inr ⟨_, m₂, ⟨.block hframe, rfl, rfl⟩, hbody⟩
  | branch c t o =>
    obtain ⟨x, m₁, hx, h⟩ := bind_eq_ok h
    split_ifs at h with htruthy
    · exact .inr ⟨_, m', ⟨.thenDo hx htruthy, rfl, rfl⟩, h⟩
    · cases o with
      | none => cases h
      | some e => exact .inr ⟨_, m', ⟨.elseDo hx (Bool.eq_false_iff.mpr htruthy), rfl, rfl⟩, h⟩
  | loop c b => exact .inr ⟨_, m', ⟨.looping, rfl, rfl⟩, h⟩
  | function decl =>
    obtain ⟨_, _, -, h⟩ := bind_eq_ok h
    obtain ⟨_, _, -, h⟩ := bind_eq_ok h
    obtain ⟨_, _, -, h⟩ := bind_eq_ok h
    cases h
  | ret keyword value => exact .inl ⟨keyword, value, rfl⟩
  | classDecl decl =>
    obtain ⟨_, _, -, h⟩ := bind_eq_ok h
    cases h

theorem inner_execAll {ss : List Stmt} (h : execAll σ (n + 1) ss m = .ok (.returned v) m') :
    ∃ b m₁, Encloses σ ⟨n + 1, .execAll ss, m⟩ b ∧ b.Returns σ v m₁ := by
  cases ss with
  | nil => cases h
  | cons st ss =>
    obtain ⟨flow, m₁, hst, h⟩ := bind_eq_ok h
    cases flow with
    | normal => exact ⟨_, m', ⟨.otherStmts hst, rfl, rfl⟩, h⟩
    | returned x =>
      cases h
      exact ⟨_, m', ⟨.firstStmt, rfl, rfl⟩, hst⟩

theorem inner_loop {e : Expr} {body : Stmt} (h : loop σ (n + 1) e body m = .ok (.returned v) m') :
    ∃ b m₁, Encloses σ ⟨n + 1, .loop e body, m⟩ b ∧ b.Returns σ v m₁ := by
  obtain ⟨x, m₁, hx, h⟩ := bind_eq_ok h
  split_ifs at h with htruthy
  · obtain ⟨flow, m₂, hbody, h⟩ := bind_eq_ok h
    cases flow with
    | normal => exact ⟨_, m', ⟨.loopAgain hx htruthy hbody, rfl, rfl⟩, h⟩
    | returned y =>
      cases h
      exact ⟨_, m', ⟨.loopBody hx htruthy, rfl, rfl⟩, hbody⟩
  · cases h

/-- **Statements that return are a `return` or run one that does.** -/
theorem Moment.Returns.inner (h : a.Returns σ v m') :
    (∃ keyword value, a.task = .exec (.ret keyword value)) ∨
      ∃ b m₁, Encloses σ a b ∧ b.Returns σ v m₁ := by
  obtain ⟨n, t, m⟩ := a
  cases n with
  | zero =>
    cases t with
    | exec | execAll | loop => cases h
    | _ => exact h.elim
  | succ n =>
    cases t with
    | exec st =>
      refine (inner_exec h).imp_left fun ⟨keyword, value, hret⟩ => ⟨keyword, value, ?_⟩
      rw [hret]
    | execAll ss => exact .inr (inner_execAll h)
    | loop e body => exact .inr (inner_loop h)
    | _ => exact h.elim

/-- Statements without a `return` of their own. -/
def Task.Returnless : Task → Prop
  | .exec st => st.Returnless
  | .execAll ss => Stmt.ReturnlessAll ss
  | .loop _ b => b.Returnless
  | _ => False

theorem Encloses.returnless (h : Encloses σ a b) (ha : a.task.Returnless) :
    b.task.Returnless := by
  obtain ⟨hstarts, -, hb⟩ := h
  cases hstarts with
  | block | looping | loopBody | loopAgain => exact ha
  | @thenDo n c t o =>
    cases o with
    | none => exact ha
    | some e => exact ha.1
  | elseDo => exact ha.2
  | firstStmt => exact ha.1
  | otherStmts => exact ha.2
  | _ => first | exact ha.elim | exact nomatch hb

theorem Within.returnless (h : Within σ a b) (ha : a.task.Returnless) : b.task.Returnless := by
  induction h with
  | refl => exact ha
  | tail _ hstep ih => exact hstep.returnless ih

/-- **Returnless statements do not return.** -/
theorem Task.Returnless.not_returns (ha : a.task.Returnless) : ¬ a.Returns σ v m' := by
  intro h
  induction hn : a.steps generalizing a m' with
  | zero =>
    rcases h.inner with ⟨keyword, value, hret⟩ | ⟨b, m₁, hb, -⟩
    · rw [hret] at ha
      exact ha
    · exact Nat.succ_ne_zero _ (hb.steps.symm.trans hn)
  | succ n ih =>
    rcases h.inner with ⟨keyword, value, hret⟩ | ⟨b, m₁, hb, hreturns⟩
    · rw [hret] at ha
      exact ha
    · exact ih (hb.returnless ha) hreturns (Nat.succ.inj (hb.steps.symm.trans hn))

/-! ## Where statements run -/

/-- **Statements run at the top level of a program or in the body of a call.** -/
theorem Reaches.statement {ss : List Stmt} (h : Reaches σ ⟨n, .program ss, m⟩ c)
    (hc : c.task.isStatement = true) :
    (∃ k st rest m₁, Reaches σ ⟨n, .program ss, m⟩ ⟨k, .program (st :: rest), m₁⟩ ∧
      Within σ ⟨k, .exec st, m₁⟩ c) ∨
    ∃ a b fn args, Reaches σ ⟨n, .program ss, m⟩ a ∧ a.task = .call fn args ∧ Starts σ a b ∧
      Within σ b c := by
  induction h with
  | refl => cases hc
  | @tail x c hreach hstep ih =>
    by_cases hx : x.task.isStatement = true
    · have hencloses : Encloses σ x c := ⟨hstep, hx, hc⟩
      rcases ih hx with ⟨k, st, rest, m₁, hprogram, hwithin⟩ | ⟨a, b, fn, args, ha, htask, hb, hwithin⟩
      · exact .inl ⟨k, st, rest, m₁, hprogram, hwithin.tail hencloses⟩
      · exact .inr ⟨a, b, fn, args, ha, htask, hb, hwithin.tail hencloses⟩
    · cases hstep with
      | firstOfProgram => exact .inl ⟨_, _, _, _, hreach, .refl⟩
      | body hframe => exact .inr ⟨_, _, _, _, hreach, rfl, .body hframe, .refl⟩
      | _ => first | exact absurd rfl hx | exact nomatch hc

/-- What is left of a program is its end. -/
theorem Reaches.program {ss rest : List Stmt} (h : Reaches σ ⟨n, .program ss, m⟩ b)
    (hb : b.task = .program rest) : rest <:+ ss := by
  induction h generalizing rest with
  | refl =>
    cases hb
    exact List.suffix_refl _
  | tail _ hstep ih =>
    cases hstep with
    | restOfProgram =>
      cases hb
      exact (List.suffix_cons _ _).trans (ih rfl)
    | _ => cases hb

end

end Scriptlet.Run
