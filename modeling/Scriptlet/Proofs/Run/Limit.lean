import Scriptlet.Proofs.Run.Output

/-!
# An output that takes only so many lines

The same computation on a machine that can write any number of lines and on one that can write `c`
lines in all. The two go the same way as long as at most `c` lines are written. If one more is going to
be written, the second machine faults at the call that writes it, and the fault ends every computation
around it.

Results:
* `Task.run_cut`: **a computation is the same on the limited machine, or it is cut off at the call that
  writes the line after the last one.**
* `Reaches.limited`, `Reaches.of_limited`: what is reached on the limited machine is what is reached on
  the other one up to that call.
* `Reaches.crosses`, `writes_unique`: every line is written by one call.
* `Reaches.unwinds`, `Reaches.cutOff`: a fault ends all computations around it, so a run that would
  write one line more than it can ends at the call that would.
-/

namespace Scriptlet

/-- The machine that can write `c` lines in all. -/
def Machine.limited (c : Nat) (m : Machine) : Machine := { m with capacity := some c }

namespace Run

open Exec

/-! ## Cutting off -/

/-- The moment is a call that is about to write the line, with the parenthesis that closes it. -/
def Moment.Writes (a : Moment) (line : String) (site : Token) : Prop :=
  ∃ args, a.task = .apply (.native .log) args site ∧ line = lineOf a.machine args

/-- What is reported when no more can be written. -/
def noSpace (site : Token) : Fault := ⟨site, .outputFailed "disk full"⟩

/-- **What becomes of a result when only `c` lines can be written**: it is the same if no more are
written; otherwise there is a fault at a moment `b` at which `c` lines have been written and one more
is about to be. Which moments are meant is given by `B`. -/
inductive Cut (B : Moment → Prop) (c : Nat) {α : Type} (r : Result α) : Result α → Prop
  | same (h : ∀ m, r.machine? = some m → m.output.size ≤ c) :
    Cut B c r (r.mapMachine (Machine.limited c))
  | cut {b : Moment} {line : String} {site : Token} {current : FrameId} (hb : B b)
      (hwrites : b.Writes line site) (hc : b.machine.output.size = c)
      (h : ∀ m, r.machine? = some m → b.machine.output.toList ++ [line] <+: m.output.toList) :
    Cut B c r (.fault (noSpace site) { b.machine.limited c with current })

section
variable {B B' : Moment → Prop} {c : Nat} {α β : Type} {m : Machine}

theorem Cut.mono {r r' : Result α} (h : Cut B c r r') (hB : ∀ b, B b → B' b) : Cut B' c r r' := by
  cases h with
  | same h => exact .same h
  | cut hb hwrites hc h => exact .cut (hB _ hb) hwrites hc h

theorem Quiet.cut {x : Exec α} (hx : Quiet x) (hm : m.output.size ≤ c) :
    Cut B c (x m) (x (m.limited c)) := by
  have hlimited : x (m.limited c) = (x m).mapMachine (Machine.limited c) := by
    have hblind := hx m m.output (some c)
    have hsame : (x m).mapMachine (Machine.writing m.output (some c)) =
        (x m).mapMachine (Machine.limited c) := by
      cases hr : x m with
      | ok v m' =>
        have hend : (x m).machine? = some m' := by rw [hr]; rfl
        have houtput := (hx.keeps hend).1
        simp only [Result.mapMachine, Machine.writing, Machine.limited, houtput]
      | fault e m' =>
        have hend : (x m).machine? = some m' := by rw [hr]; rfl
        have houtput := (hx.keeps hend).1
        simp only [Result.mapMachine, Machine.writing, Machine.limited, houtput]
      | exhausted => rfl
    exact hblind.trans hsame
  rw [hlimited]
  refine .same fun m' h => ?_
  rw [(hx.keeps h).1]
  exact hm

theorem Cut.bind {x : Exec α} {f : α → Exec β} (hx : Cut B c (x m) (x (m.limited c)))
    (hfa : ∀ v, Appending (f v))
    (hf : ∀ v m', x m = .ok v m' → m'.output.size ≤ c → Cut B c (f v m') (f v (m'.limited c))) :
    Cut B c ((x >>= f) m) ((x >>= f) (m.limited c)) := by
  change Cut B c (Exec.bind x f m) (Exec.bind x f (m.limited c))
  unfold Exec.bind
  generalize hr : x m = r at hx ⊢
  generalize x (m.limited c) = r' at hx ⊢
  cases hx with
  | same h =>
    cases r with
    | ok v m' => exact hf v m' hr (h m' rfl)
    | fault e m' => exact .same h
    | exhausted => exact .same h
  | cut hb hwrites hc h =>
    refine .cut hb hwrites hc fun m₁ h₁ => ?_
    cases r with
    | ok v m' => exact (h m' rfl).trans (hfa v h₁).output
    | fault e m' => exact h m₁ h₁
    | exhausted => cases h₁

theorem Cut.inFrame {x : Exec α} {frame : FrameId}
    (hx : Cut B c (x { m with current := frame }) (x { m.limited c with current := frame })) :
    Cut B c (inFrame frame x m) (inFrame frame x (m.limited c)) := by
  unfold Exec.inFrame
  generalize hr : x { m with current := frame } = r at hx ⊢
  generalize x { m.limited c with current := frame } = r' at hx ⊢
  cases hx with
  | same h =>
    cases r with
    | ok v m' => exact .same fun m₁ h₁ => by cases h₁; exact h m' rfl
    | fault e m' => exact .same fun m₁ h₁ => by cases h₁; exact h m' rfl
    | exhausted => exact .same fun m₁ h₁ => by cases h₁
  | cut hb hwrites hc h =>
    refine .cut hb hwrites hc fun m₁ h₁ => ?_
    cases r with
    | ok v m' =>
      cases h₁
      exact h m' rfl
    | fault e m' =>
      cases h₁
      exact h m' rfl
    | exhausted => cases h₁

variable {σ : Scoping} {n : Nat} {p : Plan α}

/-- A plan is cut off as soon as a computation that it starts is. -/
theorem Plan.run_cut (hp : p.Silent Quiet) (hm : m.output.size ≤ c)
    (hr : ∀ t m', p.Starts (Task.run σ n) m t m' → m'.output.size ≤ c →
      Cut B c (t.run σ n m') (t.run σ n (m'.limited c))) :
    Cut B c (p.run (Task.run σ n) m) (p.run (Task.run σ n) (m.limited c)) := by
  have rest (q : Plan α) (hq : q.Silent Quiet) : Appending (q.run (Task.run σ n)) :=
    Plan.run_appending (fun t _ => Task.run_appends σ n t) hq
  induction p generalizing m with
  | done value => exact (quiet_pure value).cut hm
  | operate x next ih =>
    refine (hp.1.cut hm).bind (fun v => rest (next v) (hp.2 v)) fun v m₁ hv hm₁ => ?_
    exact ih v (hp.2 v) hm₁ fun t m' h => hr t m' ⟨v, m₁, hv, h⟩
  | use u next ih =>
    refine (hr u m (.inl ⟨rfl, rfl⟩) hm).bind (fun v => rest (next v) (hp v)) fun v m₁ hv hm₁ => ?_
    exact ih v (hp v) hm₁ fun t m' h => hr t m' (.inr ⟨v, m₁, hv, h⟩)
  | useIn frame u next ih =>
    refine Cut.bind (hr u { m with current := frame } (.inl ⟨rfl, rfl⟩) hm).inFrame
      (fun v => rest (next v) (hp v)) fun v m₁ hv hm₁ => ?_
    exact ih v (hp v) hm₁ fun t m' h => hr t m' (.inr ⟨v, m₁, hv, h⟩)
  | log => exact hp.elim

/-- A call that writes a line is the same if there is space for the line, and is cut off otherwise. -/
theorem cut_log {args : List Value} {site : Token} {b : Moment}
    (htask : b.task = .apply (.native .log) args site) (hb : B b)
    (hcapacity : b.machine.capacity = none) (hm : b.machine.output.size ≤ c) :
    Cut B c ((Plan.log args site Value.null).run (Task.run σ n) b.machine)
      ((Plan.log args site Value.null).run (Task.run σ n) (b.machine.limited c)) := by
  obtain ⟨steps, task, m⟩ := b
  dsimp only at hcapacity hm
  have hwritten : (Plan.log args site Value.null).run (Task.run σ n) m =
      .ok .null { m with output := m.output.push (lineOf m args) } := by
    simp only [Plan.run]
    refine bind_of_ok (a := ()) ?_
    unfold writeLine
    rw [hcapacity]
  rcases Nat.lt_or_ge m.output.size c with hlt | hge
  · have hlimited : (Plan.log args site Value.null).run (Task.run σ n) (m.limited c) =
        .ok .null { m.limited c with output := m.output.push (lineOf m args) } := by
      simp only [Plan.run]
      refine bind_of_ok (a := ()) ?_
      simp only [writeLine, Machine.limited, Nat.not_le.mpr hlt, if_false]
      rfl
    rw [hwritten, hlimited]
    refine .same fun m' h => ?_
    cases h
    simp only [Array.size_push]
    omega
  · have hlimited : (Plan.log args site Value.null).run (Task.run σ n) (m.limited c) =
        .fault (noSpace site) { m.limited c with current := m.current } := by
      change Exec.bind _ _ _ = _
      unfold Exec.bind
      simp only [writeLine, Machine.limited, hge, if_true]
      rfl
    rw [hwritten, hlimited]
    refine .cut hb ⟨args, htask, rfl⟩ (Nat.le_antisymm hm hge) fun m' h => ?_
    cases h
    rw [Array.toList_push]

/-- **A computation is the same when only `c` lines can be written, or it is cut off** at a moment of
its own at which `c` lines have been written and one more is about to be. -/
theorem Task.run_cut (σ : Scoping) (n : Nat) (t : Task) (hcapacity : m.capacity = none)
    (hm : m.output.size ≤ c) :
    Cut (Reaches σ ⟨n, t, m⟩) c (t.run σ n m) (t.run σ n (m.limited c)) := by
  induction n, t using Task.induction σ generalizing m with
  | h n t ih =>
    rw [Task.run_eq]
    cases hgrant : t.grant n with
    | none => exact .same fun m' h => by cases h
    | some n' =>
      rcases Task.silent_or σ t with hsilent | ⟨args, site, rfl⟩
      · refine Plan.run_cut hsilent hm fun t' m' hstarts hm' => ?_
        have hcapacity' := (hstarts.appends hsilent).capacity.trans hcapacity
        exact (ih n' t' hgrant hstarts.uses hcapacity' hm').mono fun b hb =>
          .head (starts_iff.mpr ⟨hgrant, hstarts⟩) hb
      · exact cut_log (b := ⟨n, .apply (.native .log) args site, m⟩) rfl .refl hcapacity hm

/-! ## The moments of the limited run -/

/-- What yields a value while at most `c` lines are written does so on the limited machine. -/
theorem Cut.ok {x : Exec α} {v : α} {m' : Machine} (h : Cut B c (x m) (x (m.limited c)))
    (hx : x m = .ok v m') (hm' : m'.output.size ≤ c) :
    x (m.limited c) = .ok v (m'.limited c) := by
  rw [hx] at h
  generalize x (m.limited c) = r' at h
  cases h with
  | same => rfl
  | @cut b line site current hb hwrites hc h =>
    have hlength := (h m' rfl).length_le
    simp only [List.length_append, Array.length_toList, List.length_singleton] at hlength
    omega

/-- What yields a value on the limited machine yields it on the other one. -/
theorem Cut.of_ok {x : Exec α} {v : α} {m₁ : Machine} (h : Cut B c (x m) (x (m.limited c)))
    (hx : x (m.limited c) = .ok v m₁) :
    ∃ m', x m = .ok v m' ∧ m₁ = m'.limited c ∧ m'.output.size ≤ c := by
  rw [hx] at h
  generalize x m = r at h
  generalize hr' : Result.ok v m₁ = r' at h
  cases h with
  | same h =>
    cases r with
    | ok w m' =>
      cases hr'
      exact ⟨m', rfl, rfl, h m' rfl⟩
    | fault e m' => cases hr'
    | exhausted => cases hr'
  | cut => cases hr'

theorem Appending.capacity {x : Exec α} {v : α} {m' : Machine} (h : Appending x)
    (hx : x m = .ok v m') (hm : m.capacity = none) : m'.capacity = none :=
  (h (show (x m).machine? = some m' by rw [hx]; rfl)).capacity.trans hm

/-- What a computation does in another frame is cut off as in its own. -/
theorem cut_inFrame (frame : FrameId) (t : Task) (hcapacity : m.capacity = none)
    (hm : m.output.size ≤ c) :
    Cut (Reaches σ ⟨n, t, { m with current := frame }⟩) c (Exec.inFrame frame (t.run σ n) m)
      (Exec.inFrame frame (t.run σ n) (m.limited c)) :=
  (Task.run_cut (m := { m with current := frame }) σ n t hcapacity hm).inFrame

/-- What is started while at most `c` lines have been written is started on the limited machine. -/
theorem Plan.Starts.limited {t : Task} {m' : Machine} (hp : p.Silent Quiet)
    (hcapacity : m.capacity = none) (hm' : m'.output.size ≤ c)
    (h : p.Starts (Task.run σ n) m t m') :
    p.Starts (Task.run σ n) (m.limited c) t (m'.limited c) := by
  have hm : m.output.size ≤ c := (h.appends hp).size.trans hm'
  induction p generalizing m with
  | done _ | log => exact h.elim
  | operate x next ih =>
    obtain ⟨v, m₁, hx, h⟩ := h
    have hm₁ : m₁.output.size ≤ c := (h.appends (hp.2 v)).size.trans hm'
    have hcut : Cut (fun _ => True) c (x m) (x (m.limited c)) := hp.1.cut hm
    exact ⟨v, _, hcut.ok hx hm₁, ih v (hp.2 v) (hp.1.appending.capacity hx hcapacity) h hm₁⟩
  | use u next ih =>
    rcases h with ⟨rfl, rfl⟩ | ⟨v, m₁, hv, h⟩
    · exact .inl ⟨rfl, rfl⟩
    · have hm₁ : m₁.output.size ≤ c := (h.appends (hp v)).size.trans hm'
      have hcapacity₁ := (Task.run_appends σ n u).capacity hv hcapacity
      exact .inr ⟨v, _, (Task.run_cut σ n u hcapacity hm).ok hv hm₁, ih v (hp v) hcapacity₁ h hm₁⟩
  | useIn frame u next ih =>
    rcases h with ⟨rfl, rfl⟩ | ⟨v, m₁, hv, h⟩
    · exact .inl ⟨rfl, rfl⟩
    · have hm₁ : m₁.output.size ≤ c := (h.appends (hp v)).size.trans hm'
      have hcapacity₁ := ((Task.run_appends σ n u).inFrame frame).capacity hv hcapacity
      exact .inr ⟨v, _, (cut_inFrame frame u hcapacity hm).ok hv hm₁, ih v (hp v) hcapacity₁ h hm₁⟩

/-- What is started on the limited machine is started on the other one. -/
theorem Plan.Starts.of_limited {t : Task} {m₁ : Machine} (hp : p.Silent Quiet)
    (hcapacity : m.capacity = none) (hm : m.output.size ≤ c)
    (h : p.Starts (Task.run σ n) (m.limited c) t m₁) :
    ∃ m', p.Starts (Task.run σ n) m t m' ∧ m₁ = m'.limited c ∧ m'.output.size ≤ c := by
  induction p generalizing m with
  | done _ | log => exact h.elim
  | operate x next ih =>
    obtain ⟨v, m₂, hx, h⟩ := h
    have hcut : Cut (fun _ => True) c (x m) (x (m.limited c)) := hp.1.cut hm
    obtain ⟨m₃, hx', rfl, hm₃⟩ := hcut.of_ok hx
    have hcapacity₃ := hp.1.appending.capacity hx' hcapacity
    obtain ⟨m', hstarts, heq, hm'⟩ := ih v (hp.2 v) hcapacity₃ hm₃ h
    exact ⟨m', ⟨v, m₃, hx', hstarts⟩, heq, hm'⟩
  | use u next ih =>
    rcases h with ⟨rfl, rfl⟩ | ⟨v, m₂, hv, h⟩
    · exact ⟨m, .inl ⟨rfl, rfl⟩, rfl, hm⟩
    · obtain ⟨m₃, hv', rfl, hm₃⟩ := (Task.run_cut σ n u hcapacity hm).of_ok hv
      have hcapacity₃ := (Task.run_appends σ n u).capacity hv' hcapacity
      obtain ⟨m', hstarts, heq, hm'⟩ := ih v (hp v) hcapacity₃ hm₃ h
      exact ⟨m', .inr ⟨v, m₃, hv', hstarts⟩, heq, hm'⟩
  | useIn frame u next ih =>
    rcases h with ⟨rfl, rfl⟩ | ⟨v, m₂, hv, h⟩
    · exact ⟨{ m with current := frame }, .inl ⟨rfl, rfl⟩, rfl, hm⟩
    · obtain ⟨m₃, hv', rfl, hm₃⟩ := (cut_inFrame frame u hcapacity hm).of_ok hv
      have hcapacity₃ := ((Task.run_appends σ n u).inFrame frame).capacity hv' hcapacity
      obtain ⟨m', hstarts, heq, hm'⟩ := ih v (hp v) hcapacity₃ hm₃ h
      exact ⟨m', .inr ⟨v, m₃, hv', hstarts⟩, heq, hm'⟩

/-- Of the lines that the machine has written, the one after the first `c` was written by a call. -/
def WrittenBy (B : Moment → Prop) (c : Nat) (m : Machine) : Prop :=
  ∃ b line site, B b ∧ b.Writes line site ∧ b.machine.output.size = c ∧
    b.machine.output.toList ++ [line] <+: m.output.toList

theorem WrittenBy.appends {m' : Machine} (h : WrittenBy B c m) (hm : Appends m m') :
    WrittenBy B c m' := by
  obtain ⟨b, line, site, hb, hwrites, hc, hprefix⟩ := h
  exact ⟨b, line, site, hb, hwrites, hc, hprefix.trans hm.output⟩

theorem WrittenBy.mono (h : WrittenBy B c m) (hB : ∀ b, B b → B' b) : WrittenBy B' c m := by
  obtain ⟨b, line, site, hb, hwrites⟩ := h
  exact ⟨b, line, site, hB b hb, hwrites⟩

theorem Cut.writtenBy {x : Exec α} {v : α} {m' : Machine} (h : Cut B c (x m) (x (m.limited c)))
    (hx : x m = .ok v m') (hm' : c < m'.output.size) : WrittenBy B c m' := by
  rw [hx] at h
  generalize x (m.limited c) = r' at h
  cases h with
  | same h => exact absurd (h m' rfl) (Nat.not_le.mpr hm')
  | @cut b line site current hb hwrites hc h => exact ⟨b, line, site, hb, hwrites, hc, h m' rfl⟩

/-- If a plan starts something when more than `c` lines have been written, then one of the
computations before has written the line after the first `c`. -/
theorem Plan.Starts.crosses {t : Task} {m' : Machine} (hp : p.Silent Quiet)
    (hcapacity : m.capacity = none) (hm : m.output.size ≤ c) (hm' : c < m'.output.size)
    (h : p.Starts (Task.run σ n) m t m') :
    WrittenBy (fun b => ∃ u m₁, p.Starts (Task.run σ n) m u m₁ ∧ Reaches σ ⟨n, u, m₁⟩ b) c m' := by
  induction p generalizing m with
  | done _ | log => exact h.elim
  | operate x next ih =>
    obtain ⟨v, m₁, hx, h⟩ := h
    have hm₁ : m₁.output.size ≤ c := by
      rw [(hp.1.keeps (show (x m).machine? = some m₁ by rw [hx]; rfl)).1]
      exact hm
    refine (ih v (hp.2 v) (hp.1.appending.capacity hx hcapacity) hm₁ h).mono ?_
    rintro b ⟨u, m₂, hstarts, hb⟩
    exact ⟨u, m₂, ⟨v, m₁, hx, hstarts⟩, hb⟩
  | use u next ih =>
    rcases h with ⟨rfl, rfl⟩ | ⟨v, m₁, hv, h⟩
    · omega
    · rcases Nat.lt_or_ge c m₁.output.size with hlt | hle
      · refine (((Task.run_cut σ n u hcapacity hm).writtenBy hv hlt).appends
          (h.appends (hp v))).mono fun b hb => ?_
        exact ⟨u, m, .inl ⟨rfl, rfl⟩, hb⟩
      · have hcapacity₁ := (Task.run_appends σ n u).capacity hv hcapacity
        refine (ih v (hp v) hcapacity₁ hle h).mono ?_
        rintro b ⟨w, m₂, hstarts, hb⟩
        exact ⟨w, m₂, .inr ⟨v, m₁, hv, hstarts⟩, hb⟩
  | useIn frame u next ih =>
    rcases h with ⟨rfl, rfl⟩ | ⟨v, m₁, hv, h⟩
    · exact absurd hm (Nat.not_le.mpr hm')
    · rcases Nat.lt_or_ge c m₁.output.size with hlt | hle
      · refine (((cut_inFrame frame u hcapacity hm).writtenBy hv hlt).appends
          (h.appends (hp v))).mono fun b hb => ?_
        exact ⟨u, { m with current := frame }, .inl ⟨rfl, rfl⟩, hb⟩
      · have hcapacity₁ := ((Task.run_appends σ n u).inFrame frame).capacity hv hcapacity
        refine (ih v (hp v) hcapacity₁ hle h).mono ?_
        rintro b ⟨w, m₂, hstarts, hb⟩
        exact ⟨w, m₂, .inr ⟨v, m₁, hv, hstarts⟩, hb⟩

end

section
variable {σ : Scoping} {c : Nat} {a b : Moment}

/-- The moment on the limited machine. -/
def Moment.limited (c : Nat) (a : Moment) : Moment := ⟨a.steps, a.task, a.machine.limited c⟩

/-- **What is reached while at most `c` lines have been written is reached on the limited machine.** -/
theorem Reaches.limited (h : Reaches σ a b) (hcapacity : a.machine.capacity = none)
    (hb : b.machine.output.size ≤ c) : Reaches σ (a.limited c) (b.limited c) := by
  induction h with
  | refl => exact .refl
  | @tail d b hreach hstep ih =>
    obtain ⟨hgrant, hstarts⟩ := hstep.plan
    have hcapacity' := (Reaches.appends hreach).capacity.trans hcapacity
    have hlimited := hstarts.limited (Task.silent_of_starts hstarts) hcapacity' hb
    exact (ih (hstep.appends.size.trans hb)).tail (starts_iff.mpr ⟨hgrant, hlimited⟩)

/-- **What is reached on the limited machine is reached on the other one**, and at most `c` lines have
been written then. -/
theorem Reaches.of_limited (h : Reaches σ (a.limited c) b) (hcapacity : a.machine.capacity = none)
    (ha : a.machine.output.size ≤ c) :
    ∃ b', Reaches σ a b' ∧ b = b'.limited c ∧ b'.machine.output.size ≤ c := by
  induction h with
  | refl => exact ⟨a, .refl, rfl, ha⟩
  | @tail d b hreach hstep ih =>
    obtain ⟨d', hd, rfl, hsize⟩ := ih
    obtain ⟨hgrant, hstarts⟩ := hstep.plan
    have hcapacity' := hd.appends.capacity.trans hcapacity
    obtain ⟨m', hstarts', hm', hsize'⟩ :=
      hstarts.of_limited (Task.silent_of_starts hstarts) hcapacity' hsize
    obtain ⟨n, t, m⟩ := b
    obtain rfl : m = m'.limited c := hm'
    exact ⟨⟨n, t, m'⟩, hd.tail (starts_iff.mpr ⟨hgrant, hstarts'⟩), rfl, hsize'⟩

/-- **Every line that has been written was written by a call.** -/
theorem Reaches.crosses (h : Reaches σ a b) (hcapacity : a.machine.capacity = none)
    (ha : a.machine.output.size ≤ c) (hb : c < b.machine.output.size) :
    WrittenBy (Reaches σ a) c b.machine := by
  induction h with
  | refl => exact absurd ha (Nat.not_le.mpr hb)
  | @tail d b hreach hstep ih =>
    rcases Nat.lt_or_ge c d.machine.output.size with hlt | hle
    · exact (ih hlt).appends hstep.appends
    · obtain ⟨hgrant, hstarts⟩ := hstep.plan
      have hcapacity' := (Reaches.appends hreach).capacity.trans hcapacity
      refine (hstarts.crosses (Task.silent_of_starts hstarts) hcapacity' hle hb).mono ?_
      rintro e ⟨u, m₁, hu, he⟩
      exact (hreach.tail (starts_iff.mpr ⟨hgrant, hu⟩)).trans he

/-! ## Unwinding -/

/-- The fault of a computation ends the plan that has started it. -/
theorem Plan.Starts.unwinds {α : Type} {r : (t : Task) → Exec t.Answer} {p : Plan α}
    {m m' m'' : Machine} {t : Task} {f : Fault} (h : p.Starts r m t m')
    (hf : r t m' = .fault f m'') : ∃ current, p.run r m = .fault f { m'' with current } := by
  induction p generalizing m with
  | done _ | log => exact h.elim
  | operate x next ih =>
    obtain ⟨v, m₁, hx, h⟩ := h
    rw [Plan.run, bind_of_ok hx]
    exact ih v h
  | use u next ih =>
    rcases h with ⟨rfl, rfl⟩ | ⟨v, m₁, hv, h⟩
    · refine ⟨m''.current, ?_⟩
      change Exec.bind _ _ _ = _
      unfold Exec.bind
      rw [hf]
    · rw [Plan.run, bind_of_ok hv]
      exact ih v h
  | useIn frame u next ih =>
    rcases h with ⟨rfl, rfl⟩ | ⟨v, m₁, hv, h⟩
    · refine ⟨m.current, ?_⟩
      change Exec.bind _ _ _ = _
      unfold Exec.bind Exec.inFrame
      simp only [hf]
    · rw [Plan.run, bind_of_ok hv]
      exact ih v h

/-- **A fault ends all computations around it**, and nothing but the current frame changes on the
way. -/
theorem Reaches.unwinds {m' : Machine} {f : Fault} (h : Reaches σ a b)
    (hf : b.task.run σ b.steps b.machine = .fault f m') :
    ∃ current, a.task.run σ a.steps a.machine = .fault f { m' with current } := by
  induction h generalizing m' with
  | refl => exact ⟨m'.current, hf⟩
  | @tail d b hreach hstep ih =>
    obtain ⟨hgrant, hstarts⟩ := hstep.plan
    obtain ⟨current, hd⟩ := hstarts.unwinds hf
    have hfault : d.task.run σ d.steps d.machine = .fault f { m' with current } := by
      rw [Task.run_eq, hgrant]
      exact hd
    obtain ⟨outer, ha⟩ := ih hfault
    exact ⟨outer, ha⟩

/-- **A run that is about to write one line more than it can is cut off there**, whatever number of
steps it is granted beyond those it takes up to there. -/
theorem Reaches.cutOff {line : String} {site : Token} (h : Reaches σ a b)
    (hcapacity : a.machine.capacity = none) (hwrites : b.Writes line site)
    (hb : b.machine.output.size = c) :
    ∃ current, ∀ k, a.steps < k → a.task.run σ k (a.machine.limited c) =
      .fault (noSpace site) { b.machine.limited c with current } := by
  obtain ⟨n, t, m⟩ := a
  obtain ⟨n', t', m'⟩ := b
  obtain ⟨args, rfl, -⟩ := hwrites
  have hlimited := (h.add 1).limited hcapacity (le_of_eq hb)
  have hfault : (Task.apply (.native .log) args site).run σ (n' + 1) (m'.limited c) =
      .fault (noSpace site) (m'.limited c) := by
    change Exec.bind _ _ _ = _
    unfold Exec.bind
    simp only [writeLine, Machine.limited, hb, le_refl, if_true]
    rfl
  obtain ⟨current, hrun⟩ := hlimited.unwinds hfault
  refine ⟨current, fun k hk => ?_⟩
  have hrun' : t.run σ (n + 1) (m.limited c) = .fault (noSpace site) { m'.limited c with current } :=
    hrun
  rw [(Task.run_mono σ hk t (m.limited c)).of_ne (by simp [hrun']), hrun']

end

/-! ## Each line is written once -/

section
variable {σ : Scoping} {n : Nat} {a b : Moment} {m m' m₁ m₂ : Machine}

/-- The computation has ended, with no more lines than the machine has. -/
def EndsBy (σ : Scoping) (a : Moment) (m : Machine) : Prop :=
  ∃ m', (a.task.run σ a.steps a.machine).machine? = some m' ∧ m'.output.toList <+: m.output.toList

theorem EndsBy.appends (h : EndsBy σ a m) (hm : Appends m m') : EndsBy σ a m' := by
  obtain ⟨m₁, h₁, hprefix⟩ := h
  exact ⟨m₁, h₁, hprefix.trans hm.output⟩

/-- What a computation in another frame ends with has been written when the frame is left. -/
theorem endsBy_inFrame {t : Task} {frame : FrameId}
    (h : (inFrame frame (t.run σ n) m).machine? = some m') :
    EndsBy σ ⟨n, t, { m with current := frame }⟩ m' := by
  unfold EndsBy
  unfold inFrame at h
  cases hr : t.run σ n { m with current := frame } with
  | ok v m₁ =>
    simp only [hr] at h
    cases h
    exact ⟨m₁, rfl, List.prefix_refl _⟩
  | fault e m₁ =>
    simp only [hr] at h
    cases h
    exact ⟨m₁, rfl, List.prefix_refl _⟩
  | exhausted =>
    simp only [hr] at h
    cases h

section
variable {α β : Type} {x : Exec α} {f : α → Exec β} {p : Plan α}

/-- If one computation after the other ends, then the first has ended before. -/
theorem end_of_bind (hf : ∀ v, Appending (f v)) (h : ((x >>= f) m).machine? = some m') :
    ∃ m₁, (x m).machine? = some m₁ ∧ Appends m₁ m' := by
  change (Exec.bind x f m).machine? = _ at h
  unfold Exec.bind at h
  cases hr : x m with
  | ok v m₁ =>
    rw [hr] at h
    exact ⟨m₁, rfl, hf v h⟩
  | fault e m₁ =>
    rw [hr] at h
    cases h
    exact ⟨_, rfl, .refl _⟩
  | exhausted =>
    rw [hr] at h
    cases h

/-- When a plan ends, what it has started has ended. -/
theorem Plan.Starts.endsBy {t : Task} (hp : p.Silent Quiet)
    (h : p.Starts (Task.run σ n) m t m₁) (hend : (p.run (Task.run σ n) m).machine? = some m') :
    EndsBy σ ⟨n, t, m₁⟩ m' := by
  have rest (q : Plan α) (hq : q.Silent Quiet) : Appending (q.run (Task.run σ n)) :=
    Plan.run_appending (fun t _ => Task.run_appends σ n t) hq
  induction p generalizing m with
  | done _ | log => exact h.elim
  | operate x next ih =>
    obtain ⟨v, m₂, hx, h⟩ := h
    rw [Plan.run, bind_of_ok hx] at hend
    exact ih v (hp.2 v) h hend
  | use u next ih =>
    rcases h with ⟨rfl, rfl⟩ | ⟨v, m₂, hv, h⟩
    · obtain ⟨m₂, h₂, happends⟩ := end_of_bind (fun v => rest (next v) (hp v)) hend
      exact ⟨m₂, h₂, happends.output⟩
    · rw [Plan.run, bind_of_ok hv] at hend
      exact ih v (hp v) h hend
  | useIn frame u next ih =>
    rcases h with ⟨rfl, rfl⟩ | ⟨v, m₂, hv, h⟩
    · obtain ⟨m₂, h₂, happends⟩ := end_of_bind (fun v => rest (next v) (hp v)) hend
      exact (endsBy_inFrame h₂).appends happends
    · rw [Plan.run, bind_of_ok hv] at hend
      exact ih v (hp v) h hend

/-- Of two computations that a plan starts, one has ended before the other starts. -/
theorem Plan.Starts.compare {t₁ t₂ : Task} (hp : p.Silent Quiet)
    (h₁ : p.Starts (Task.run σ n) m t₁ m₁) (h₂ : p.Starts (Task.run σ n) m t₂ m₂) :
    (t₁ = t₂ ∧ m₁ = m₂) ∨ EndsBy σ ⟨n, t₁, m₁⟩ m₂ ∨ EndsBy σ ⟨n, t₂, m₂⟩ m₁ := by
  induction p generalizing m with
  | done _ | log => exact h₁.elim
  | operate x next ih =>
    obtain ⟨v, m₃, hx, h₁⟩ := h₁
    obtain ⟨w, m₄, hx', h₂⟩ := h₂
    cases hx.symm.trans hx'
    exact ih v (hp.2 v) h₁ h₂
  | use u next ih =>
    rcases h₁ with ⟨rfl, rfl⟩ | ⟨v, m₃, hv, h₁⟩
    · rcases h₂ with ⟨rfl, rfl⟩ | ⟨w, m₄, hw, h₂⟩
      · exact .inl ⟨rfl, rfl⟩
      · exact .inr (.inl ⟨m₄, by rw [hw]; rfl, (h₂.appends (hp w)).output⟩)
    · rcases h₂ with ⟨rfl, rfl⟩ | ⟨w, m₄, hw, h₂⟩
      · exact .inr (.inr ⟨m₃, by rw [hv]; rfl, (h₁.appends (hp v)).output⟩)
      · cases hv.symm.trans hw
        exact ih v (hp v) h₁ h₂
  | useIn frame u next ih =>
    rcases h₁ with ⟨rfl, rfl⟩ | ⟨v, m₃, hv, h₁⟩
    · rcases h₂ with ⟨rfl, rfl⟩ | ⟨w, m₄, hw, h₂⟩
      · exact .inl ⟨rfl, rfl⟩
      · exact .inr (.inl ((endsBy_inFrame (by rw [hw]; rfl)).appends (h₂.appends (hp w))))
    · rcases h₂ with ⟨rfl, rfl⟩ | ⟨w, m₄, hw, h₂⟩
      · exact .inr (.inr ((endsBy_inFrame (by rw [hv]; rfl)).appends (h₁.appends (hp v))))
      · cases hv.symm.trans hw
        exact ih v (hp v) h₁ h₂

end

/-- When a computation ends, all that it has reached has ended. -/
theorem Reaches.endsBy (h : Reaches σ a b) (hend : EndsBy σ a m) : EndsBy σ b m := by
  induction h with
  | refl => exact hend
  | @tail d b hreach hstep ih =>
    obtain ⟨m₁, h₁, hprefix⟩ := ih
    obtain ⟨hgrant, hstarts⟩ := hstep.plan
    rw [Task.run_eq, hgrant] at h₁
    obtain ⟨m₂, h₂, hprefix'⟩ := hstarts.endsBy (Task.silent_of_starts hstarts) h₁
    exact ⟨m₂, h₂, hprefix'.trans hprefix⟩

/-- When a call that writes a line has ended, the line has been written. -/
theorem Moment.Writes.lt_of_endsBy {line : String} {site : Token} (hb : b.Writes line site)
    (hcapacity : b.machine.capacity = none) (h : EndsBy σ b m) :
    b.machine.output.size < m.output.size := by
  obtain ⟨n, t, m₀⟩ := b
  obtain ⟨args, rfl, -⟩ := hb
  obtain ⟨m₁, h₁, hprefix⟩ := h
  cases n with
  | zero => cases h₁
  | succ n =>
    have hwritten : (Task.apply (.native .log) args site).run σ (n + 1) m₀ =
        .ok .null { m₀ with output := m₀.output.push (lineOf m₀ args) } := by
      refine bind_of_ok (x := writeLine (lineOf m₀ args) site) (a := ()) ?_
      unfold writeLine
      rw [show m₀.capacity = none from hcapacity]
    rw [hwritten] at h₁
    cases h₁
    have hlength := hprefix.length_le
    simp only [Array.length_toList, Array.size_push] at hlength
    exact hlength

/-- **Each line is written once**: the number of lines written before tells which call it is. -/
theorem writes_unique (n : Nat) (t : Task) (hcapacity : m.capacity = none) {b₁ b₂ : Moment}
    {line₁ line₂ : String} {site₁ site₂ : Token} (h₁ : Reaches σ ⟨n, t, m⟩ b₁)
    (h₂ : Reaches σ ⟨n, t, m⟩ b₂) (hw₁ : b₁.Writes line₁ site₁) (hw₂ : b₂.Writes line₂ site₂)
    (hsize : b₁.machine.output.size = b₂.machine.output.size) : b₁ = b₂ := by
  induction n, t using Task.induction σ generalizing m with
  | h n t ih =>
    -- A call that writes a line starts nothing.
    have alone {d : Moment} {line : String} {site : Token} (hw : Moment.Writes ⟨n, t, m⟩ line site)
        (hstep : Starts σ ⟨n, t, m⟩ d) : False := by
      obtain ⟨args, rfl, -⟩ := hw
      exact hstep.plan.2.elim
    rcases Relation.ReflTransGen.cases_head h₁ with rfl | ⟨⟨n₁, t₁, m₁⟩, hstep₁, hreach₁⟩
    · rcases Relation.ReflTransGen.cases_head h₂ with rfl | ⟨d₂, hstep₂, -⟩
      · rfl
      · exact (alone hw₁ hstep₂).elim
    · rcases Relation.ReflTransGen.cases_head h₂ with rfl | ⟨⟨n₂, t₂, m₂⟩, hstep₂, hreach₂⟩
      · exact (alone hw₂ hstep₁).elim
      · obtain ⟨hgrant, hstarts₁⟩ := starts_iff.mp hstep₁
        obtain ⟨hgrant₂, hstarts₂⟩ := starts_iff.mp hstep₂
        cases hgrant.symm.trans hgrant₂
        have hcapacity₁ := hstep₁.appends.capacity.trans hcapacity
        have hcapacity₂ := hstep₂.appends.capacity.trans hcapacity
        rcases hstarts₁.compare (Task.silent_of_starts hstarts₁) hstarts₂ with
          ⟨rfl, rfl⟩ | hends | hends
        · exact ih n₁ t₁ hgrant hstarts₁.uses hcapacity₁ hreach₁ hreach₂
        · have hlt := hw₁.lt_of_endsBy
            ((Reaches.appends hreach₁).capacity.trans hcapacity₁) (Reaches.endsBy hreach₁ hends)
          have hle : m₂.output.size ≤ b₂.machine.output.size := (Reaches.appends hreach₂).size
          omega
        · have hlt := hw₂.lt_of_endsBy
            ((Reaches.appends hreach₂).capacity.trans hcapacity₂) (Reaches.endsBy hreach₂ hends)
          have hle : m₁.output.size ≤ b₁.machine.output.size := (Reaches.appends hreach₁).size
          omega

end

end Run

end Scriptlet
