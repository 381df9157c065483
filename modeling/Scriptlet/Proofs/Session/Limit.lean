import Scriptlet.Proofs.Run.Limit
import Scriptlet.Proofs.Session.Agreement
import Mathlib.Order.Filter.AtTopBot.Basic

/-!
# A session whose output fails

The lines that the run of a chunk passes to the output are numbered by those it has passed before:
`Session.Writes` says that a call expression passes line `k`, counted from the lines that the session
has written before. Such a call may be on the way of a run that never ends. `Session.limited c` is the
session whose output takes `c` lines in all and then always fails.

Results:
* `Session.Writes.unique`, `Session.Writes.earlier`: the lines are a sequence.
* `Session.failing_output`: **a failing output truncates the run and does nothing else.**
-/

namespace Scriptlet.Session

open Run Exec
open Filter (atTop)

variable {s : Session} {source : String} {k n : Nat} {line : String} {site : Token}

/-- **The run of the chunk passes line number `k` to the output**, by a call expression that ends with
the parenthesis `site`. -/
def Writes (s : Session) (source : String) (k : Nat) (line : String) (site : Token) : Prop :=
  (compile source s.nextRef).reports = [] ∧
    ∃ a b callee args, s.Passes source a ∧ Starts (s.keep (compile source s.nextRef)).scoping a b ∧
      a.task = .eval (.call callee site args) ∧ b.Writes line site ∧
        b.machine.output.size = s.machine.output.size + k

/-- The session whose output takes `c` lines in all. -/
def limited (c : Nat) (s : Session) : Session := { s with machine := s.machine.limited c }

/-! ## The sequence of lines -/

/-- Whatever writes a line in the run of a chunk is a call expression. -/
theorem Passes.writes {b : Moment} (hreports : (compile source s.nextRef).reports = [])
    (hb : s.Passes source b) (hwrites : b.Writes line site)
    (hsize : b.machine.output.size = s.machine.output.size + k) : s.Writes source k line site := by
  obtain ⟨steps, hreach⟩ := hb
  rcases Relation.ReflTransGen.cases_tail hreach with rfl | ⟨a, ha, hstep⟩
  · obtain ⟨args, htask, -⟩ := hwrites
    cases htask
  · obtain ⟨args, htask, hline⟩ := hwrites
    obtain ⟨n, t, m⟩ := b
    obtain rfl : t = .apply (.native .log) args site := htask
    cases hstep with
    | applied h h' harity =>
      exact ⟨hreports, _, _, _, _, ⟨steps, ha⟩, .applied h h' harity, rfl, ⟨args, rfl, hline⟩, hsize⟩

theorem Writes.passes (h : s.Writes source k line site) :
    ∃ b, s.Passes source b ∧ b.Writes line site ∧
      b.machine.output.size = s.machine.output.size + k := by
  obtain ⟨-, a, b, callee, args, ⟨steps, ha⟩, hstep, -, hwrites, hsize⟩ := h
  exact ⟨b, ⟨steps, ha.tail hstep⟩, hwrites, hsize⟩

/-- A line has one text and one call. -/
theorem Writes.unique {line' : String} {site' : Token} (hs : s.machine.capacity = none)
    (h : s.Writes source k line site) (h' : s.Writes source k line' site') :
    line = line' ∧ site = site' := by
  obtain ⟨⟨n₁, t₁, m₁⟩, ⟨steps₁, hreach₁⟩, ⟨args₁, htask₁, rfl⟩, hsize₁⟩ := h.passes
  obtain ⟨⟨n₂, t₂, m₂⟩, ⟨steps₂, hreach₂⟩, ⟨args₂, htask₂, rfl⟩, hsize₂⟩ := h'.passes
  obtain rfl : t₁ = .apply (.native .log) args₁ site := htask₁
  obtain rfl : t₂ = .apply (.native .log) args₂ site' := htask₂
  -- Both are reached when as many steps are granted as for both together.
  have hlater₁ := hreach₁.add steps₂
  have hlater₂ := hreach₂.add steps₁
  rw [Nat.add_comm steps₂ steps₁] at hlater₂
  have hsame := writes_unique _ _ hs hlater₁ hlater₂ ⟨args₁, rfl, rfl⟩ ⟨args₂, rfl, rfl⟩
    (hsize₁.trans hsize₂.symm)
  injection hsame with _ htask hmachine
  cases htask
  exact ⟨congrArg (lineOf · args₁) hmachine, rfl⟩

/-- Of what has been written at a moment of a run, every line was passed by a call. -/
theorem Passes.earlier {b : Moment} {j : Nat} (hs : s.machine.capacity = none)
    (hreports : (compile source s.nextRef).reports = []) (hb : s.Passes source b)
    (hj : s.machine.output.size + j < b.machine.output.size) :
    ∃ line site, s.Writes source j line site ∧
      b.machine.output.toList[s.machine.output.size + j]? = some line := by
  obtain ⟨steps, hreach⟩ := hb
  obtain ⟨d, line, site, hd, hwrites, hsize, hprefix⟩ :=
    hreach.crosses hs (Nat.le_add_right _ j) hj
  refine ⟨line, site, Passes.writes hreports ⟨steps, hd⟩ hwrites hsize, ?_⟩
  obtain ⟨rest, hrest⟩ := hprefix
  rw [← hrest, ← hsize, ← Array.length_toList, List.append_assoc, List.getElem?_append_right
    (le_refl _)]
  simp

/-- The lines before a line are passed. -/
theorem Writes.earlier {j : Nat} (hs : s.machine.capacity = none) (h : s.Writes source k line site)
    (hj : j < k) : ∃ line' site', s.Writes source j line' site' := by
  obtain ⟨b, hb, -, hsize⟩ := h.passes
  obtain ⟨line', site', hj', -⟩ := hb.earlier hs h.1 (j := j) (by omega)
  exact ⟨line', site', hj'⟩

/-! ## The limited run -/

/-- **What is left of a run that is cut off before line number `n`**, at the call that ends with
`site`. -/
structure CutOff (s : Session) (source : String) (n : Nat) (site : Token) (t : Session) : Prop where
  /-- The lines are the first `n`. -/
  output : ∃ lines, t.machine.output.toList = s.machine.output.toList ++ lines ∧ lines.length = n ∧
    ∀ k line, lines[k]? = some line → ∃ site', s.Writes source k line site'
  /-- There is one more report, at the parenthesis that closes the call. -/
  report : t.diagnostics = s.diagnostics.report
    (.atText site.line site.lexeme "Could not write output: disk full")
  /-- The machine is as it was when the call was about to write its line, but for the frame. -/
  machine : ∃ b line, s.Passes source b ∧ b.Writes line site ∧
    b.machine.output.size = s.machine.output.size + n ∧
    t.machine = { b.machine.limited (s.machine.output.size + n) with current := Store.global }

/-- What is left in the session of a program that has been run. -/
def conclude (s : Session) : Result Unit → Option (Outcome × Session)
  | .ok _ machine => some (.completed, { s with machine })
  | .fault f machine => some (.runtimeError,
    { s with
      machine := { machine with current := Store.global }
      diagnostics := s.diagnostics.report f.diagnostic })
  | .exhausted => none

theorem execute_eq (s : Session) (steps : Nat) (program : List Stmt) :
    s.execute steps program =
      s.conclude ((Task.program program).run s.scoping steps s.machine) := by
  unfold execute interpret
  change _ = s.conclude (execProgram s.scoping steps program s.machine)
  cases execProgram s.scoping steps program s.machine <;> rfl

theorem conclude_limited (s : Session) (c : Nat) (r : Result Unit) :
    (s.limited c).conclude (r.mapMachine (Machine.limited c)) =
      (s.conclude r).map (Prod.map id (limited c)) := by
  cases r <;> rfl

/-- A chunk that is run is run on the limited machine when the output is limited. -/
theorem run_eq_conclude (hreports : (compile source s.nextRef).reports = []) (c steps : Nat) :
    s.run steps source = (s.keep (compile source s.nextRef)).conclude
        ((Task.program (compile source s.nextRef).program).run
          (s.keep (compile source s.nextRef)).scoping steps s.machine) ∧
      (s.limited c).run steps source = ((s.keep (compile source s.nextRef)).limited c).conclude
        ((Task.program (compile source s.nextRef).program).run
          (s.keep (compile source s.nextRef)).scoping steps (s.machine.limited c)) := by
  rw [run_eq_execute steps hreports, run_eq_execute (s := s.limited c) steps hreports, execute_eq,
    execute_eq]
  exact ⟨rfl, rfl⟩

/-- A run that passes no line number `n` is the same when the output takes `n` lines only. -/
theorem run_limited (hs : s.machine.capacity = none)
    (h : ∀ line site, ¬s.Writes source n line site) (steps : Nat) :
    (s.limited (s.machine.output.size + n)).run steps source =
      (s.run steps source).map (Prod.map id (limited (s.machine.output.size + n))) := by
  by_cases hreports : (compile source s.nextRef).reports = []
  · obtain ⟨hrun, hlimited⟩ := run_eq_conclude hreports (s.machine.output.size + n) steps
    have hcut := Task.run_cut (c := s.machine.output.size + n)
      (s.keep (compile source s.nextRef)).scoping steps
      (.program (compile source s.nextRef).program) hs (Nat.le_add_right _ n)
    rw [hrun, hlimited]
    generalize (Task.program (compile source s.nextRef).program).run _ steps s.machine = r at hcut ⊢
    generalize (Task.program (compile source s.nextRef).program).run _ steps
      (s.machine.limited (s.machine.output.size + n)) = r' at hcut ⊢
    cases hcut with
    | same => exact conclude_limited _ _ r
    | cut hb hwrites hsize => exact absurd (Passes.writes hreports ⟨steps, hb⟩ hwrites hsize) (h _ _)
  · rw [run_eq_rejected steps hreports, run_eq_rejected (s := s.limited _) steps hreports]
    rfl

/-- A run that passes line number `n` is cut off there when the output takes `n` lines only. -/
theorem run_cutOff (hs : s.machine.capacity = none) (h : s.Writes source n line site) :
    ∃ t, s.CutOff source n site t ∧
      ∀ᶠ steps in atTop, (s.limited (s.machine.output.size + n)).run steps source =
        some (.runtimeError, t) := by
  obtain ⟨b, hb, hwrites, hsize⟩ := h.passes
  obtain ⟨steps, hreach⟩ := hb
  obtain ⟨current, hcut⟩ := hreach.cutOff hs hwrites hsize
  let c := s.machine.output.size + n
  refine ⟨{ (s.keep (compile source s.nextRef)).limited c with
      machine := { b.machine.limited c with current := Store.global }
      diagnostics := s.diagnostics.report (noSpace site).diagnostic }, ⟨?_, rfl, ?_⟩, ?_⟩
  · obtain ⟨lines, hlines⟩ := hreach.appends.output
    have hlength : lines.length = n := by
      have := congrArg List.length hlines
      simp only [List.length_append, Array.length_toList] at this
      omega
    refine ⟨lines, hlines.symm, hlength, fun k line hline => ?_⟩
    have hk : k < n := hlength ▸ (List.getElem?_eq_some_iff.mp hline).1
    obtain ⟨line', site', hwrites', hline'⟩ :=
      Passes.earlier hs h.1 ⟨steps, hreach⟩ (j := k) (by omega)
    rw [← hlines, ← Array.length_toList, List.getElem?_append_right (Nat.le_add_right _ k),
      Nat.add_sub_cancel_left, hline] at hline'
    cases hline'
    exact ⟨site', hwrites'⟩
  · exact ⟨b, line, ⟨steps, hreach⟩, hwrites, hsize, rfl⟩
  · filter_upwards [Filter.eventually_gt_atTop steps] with k hk
    rw [(run_eq_conclude h.1 c k).2]
    rw [show (Task.program _).run _ k (s.machine.limited c) = _ from hcut k hk]
    rfl

/-- **A failing output truncates the run and does nothing else.** The lines that a run passes to an
output that never fails are a sequence, perhaps an endless one. If it has no line number `n`, the run
with an output that takes `n` lines is the same for every number of steps: outcome, lines, reports and
all. If it has, that run ends with a run-time error, given enough steps, and with one report, at the
parenthesis that closes the call of line number `n`; it has written the first `n` lines. All that it
comes to is what the other run comes to before it writes line number `n`. -/
theorem failing_output (hs : s.machine.capacity = none) (source : String) (n : Nat) :
    (∀ k line line' site site', s.Writes source k line site → s.Writes source k line' site' →
      line = line' ∧ site = site') ∧
    (∀ j k line site, s.Writes source k line site → j < k →
      ∃ line' site', s.Writes source j line' site') ∧
    ((∀ line site, ¬s.Writes source n line site) →
      ∀ steps, (s.limited (s.machine.output.size + n)).run steps source =
        (s.run steps source).map (Prod.map id (limited (s.machine.output.size + n)))) ∧
    (∀ line site, s.Writes source n line site →
      ∃ t, s.CutOff source n site t ∧
        ∀ᶠ steps in atTop, (s.limited (s.machine.output.size + n)).run steps source =
          some (.runtimeError, t)) ∧
    ∀ a, (s.limited (s.machine.output.size + n)).Passes source a →
      ∃ b, s.Passes source b ∧ a = b.limited (s.machine.output.size + n) ∧
        b.machine.output.size ≤ s.machine.output.size + n := by
  refine ⟨fun k line line' site site' h h' => h.unique hs h', fun j k line site h hj =>
    h.earlier hs hj, run_limited hs, fun line site h => run_cutOff hs h, ?_⟩
  rintro a ⟨steps, hreach⟩
  obtain ⟨b, hb, ha, hsize⟩ := Reaches.of_limited
    (a := ⟨steps, .program (compile source s.nextRef).program, s.machine⟩) hreach hs
    (Nat.le_add_right _ n)
  exact ⟨b, ⟨steps, hb⟩, ha, hsize⟩

/-- Two lines in the first chunk of a session, and an output that takes one. -/
theorem failing_output_second :
    ∃ line site t,
      (Session.start .nan none).Writes "console.log(1);console.log(2);" 1 line site ∧
      (Session.start .nan none).CutOff "console.log(1);console.log(2);" 1 site t ∧
      ∀ᶠ steps in atTop, ((Session.start .nan none).limited 1).run steps
        "console.log(1);console.log(2);" = some (.runtimeError, t) := by
  obtain ⟨-, -, hsame, hcut, -⟩ :=
    failing_output (s := .start .nan none) rfl "console.log(1);console.log(2);" 1
  have hwrites : ∃ line site,
      (Session.start .nan none).Writes "console.log(1);console.log(2);" 1 line site := by
    by_contra hnone
    have hfails : (((Session.start .nan none).limited 1).run 20
        "console.log(1);console.log(2);").map (·.1) = some .runtimeError := by decide +kernel
    have hcompletes : ((Session.start .nan none).run 20
        "console.log(1);console.log(2);").map (·.1) = some .completed := by decide +kernel
    have heq := hsame (fun line site h => hnone ⟨line, site, h⟩) 20
    rw [show (Session.start .nan none).machine.output.size + 1 = 1 from rfl] at heq
    rw [heq, Option.map_map] at hfails
    exact absurd (hcompletes.symm.trans hfails) (by decide)
  obtain ⟨line, site, hwrites⟩ := hwrites
  obtain ⟨t, hcutOff, hruns⟩ := hcut line site hwrites
  exact ⟨line, site, t, hwrites, hcutOff, hruns⟩

end Scriptlet.Session
