import Mathlib.Algebra.Ring.Nat
import Scriptlet.Proofs.Session.Rejected

/-!
# Outcomes and reports

Each chunk of a session has an outcome, and the session keeps a record of reports. How a chunk ended
can be read off the reports it has added (`Outcome.Accounts`): none if it completed, compile-time ones
if it was rejected, a single run-time one if it ended with a fault. No list of reports accounts for two
outcomes.

So the record tells the whole past of a session (`Diagnostics.Records`): its reports are those of the
answers, one answer after the other, and its flags say whether some answer was a compile error or a
run-time error.

Results:
* `Session.run_accounts`: what one chunk adds to the record.
* `Session.after_records`: what chunks one after the other leave in it.
* `Session.outcomes_match_reports`: **outcomes, reports, flags and count agree after every sequence of
  chunks.**
-/

namespace Scriptlet

/-! ## One chunk -/

/-- What an outcome says about the reports that have been added. -/
def Outcome.Accounts : Outcome → List Diagnostic → Prop
  | .completed, added => added = []
  | .compileError, added => added ≠ [] ∧ ∀ d ∈ added, d.phase = .compile
  | .runtimeError, added => ∃ d, added = [d] ∧ d.phase = .runtime

namespace Outcome.Accounts

variable {outcome outcome' : Outcome} {added : List Diagnostic}

/-- Compile-time reports are added by compile errors only. -/
theorem compile_iff (h : outcome.Accounts added) :
    (∃ d ∈ added, d.phase = .compile) ↔ outcome = .compileError := by
  cases outcome with
  | completed => simp [show added = [] from h]
  | compileError =>
    obtain ⟨hne, hphase⟩ := h
    obtain ⟨d, hd⟩ := List.exists_mem_of_ne_nil _ hne
    exact ⟨fun _ => rfl, fun _ => ⟨d, hd, hphase d hd⟩⟩
  | runtimeError =>
    obtain ⟨d, rfl, hphase⟩ := h
    simp [hphase]

/-- Run-time reports are added by run-time errors only. -/
theorem runtime_iff (h : outcome.Accounts added) :
    (∃ d ∈ added, d.phase = .runtime) ↔ outcome = .runtimeError := by
  cases outcome with
  | completed => simp [show added = [] from h]
  | compileError =>
    refine ⟨?_, nofun⟩
    rintro ⟨d, hd, hruntime⟩
    exact absurd ((h.2 d hd).symm.trans hruntime) nofun
  | runtimeError =>
    obtain ⟨d, rfl, hphase⟩ := h
    simp [hphase]

/-- **Added reports account for one outcome only.** -/
theorem unique (h : outcome.Accounts added) (h' : outcome'.Accounts added) : outcome' = outcome := by
  have hcompile := h.compile_iff.symm.trans h'.compile_iff
  have hruntime := h.runtime_iff.symm.trans h'.runtime_iff
  cases outcome <;> cases outcome' <;> simp_all

end Outcome.Accounts

/-! ## The record of a session -/

namespace Diagnostics

/-- **The record of a session tells how its chunks were answered.** -/
structure Records (ds : Diagnostics) (answers : List Answer) : Prop where
  reports : ds.reports.toList = answers.flatMap (·.reports)
  count : ds.count = (answers.map (·.reports.length)).sum
  hadCompileError : ds.hadCompileError = true ↔ ∃ a ∈ answers, a.outcome = .compileError
  hadRuntimeError : ds.hadRuntimeError = true ↔ ∃ a ∈ answers, a.outcome = .runtimeError

/-- The flags and the count follow from the reports, if those account for the outcomes. -/
theorem records_of_reports {ds : Diagnostics} {answers : List Answer}
    (haccounts : ∀ a ∈ answers, a.outcome.Accounts a.reports)
    (hreports : ds.reports.toList = answers.flatMap (·.reports)) : ds.Records answers := by
  have hflag (phase : Phase) :
      ds.reports.any (·.phase = phase) = true ↔ ∃ a ∈ answers, ∃ d ∈ a.reports, d.phase = phase := by
    rw [← Array.any_toList, hreports]
    simp
  refine ⟨hreports, ?_, ?_, ?_⟩
  · rw [count, ← Array.length_toList, hreports, List.length_flatMap]
  · exact (hflag .compile).trans
      (exists_congr fun a => and_congr_right fun ha => (haccounts a ha).compile_iff)
  · exact (hflag .runtime).trans
      (exists_congr fun a => and_congr_right fun ha => (haccounts a ha).runtime_iff)

end Diagnostics

namespace Session

variable {s t : Session}

/-- **The reports that a chunk adds account for its outcome.** If it is a compile error, nothing has
been run. -/
theorem run_accounts {steps : Nat} {source : String} {outcome : Outcome}
    (hrun : s.run steps source = some (outcome, t)) :
    ∃ added, t.diagnostics.reports.toList = s.diagnostics.reports.toList ++ added ∧
      outcome.Accounts added ∧ (outcome = .compileError → t.machine = s.machine) := by
  by_cases hreports : (compile source s.nextRef).reports = []
  · rw [run_eq_execute steps hreports, execute] at hrun
    split at hrun
    · cases hrun
      exact ⟨[], (List.append_nil _).symm, rfl, nofun⟩
    · rename_i f _ _
      cases hrun
      exact ⟨[f.diagnostic], Array.toList_push, ⟨_, rfl, rfl⟩, nofun⟩
    · cases hrun
  · rw [run_eq_rejected steps hreports] at hrun
    cases hrun
    exact ⟨_, reports_reject _ _ _, ⟨hreports, fun d => phase_of_mem_reports⟩, fun _ => rfl⟩

/-- What an answer says about the session before and after it. -/
structure Accounted (s : Session) (c : Chunk) (a : Answer) (t : Session) : Prop where
  /-- Reports are only added, those of the answer. -/
  appended : t.diagnostics.reports.toList = s.diagnostics.reports.toList ++ a.reports
  /-- They account for the outcome of the answer and for no other. -/
  accounts (outcome : Outcome) : outcome.Accounts a.reports ↔ outcome = a.outcome
  /-- After a compile error the machine is the one before, at the time of the chunk. -/
  unmoved : a.outcome = .compileError → t.machine = (s.atTime c.clock).machine ∧ a.lines = []

theorem accounted_of_answer {c : Chunk} {a : Answer} (h : s.answer c = some (a, t)) :
    Accounted s c a t := by
  obtain ⟨⟨outcome, u⟩, hrun, heq⟩ := Option.map_eq_some_iff.mp h
  obtain ⟨added, happended, haccounts, hunmoved⟩ := run_accounts hrun
  cases heq
  have hadded : t.reportsSince s.diagnostics.count = added := reportsSince_eq happended
  refine ⟨by rw [hadded, happended]; rfl, fun outcome' => ?_, fun hcompile => ?_⟩
  · rw [hadded]
    exact ⟨haccounts.unique, fun h => h ▸ haccounts⟩
  · have hmachine := hunmoved hcompile
    refine ⟨hmachine, linesSince_eq ?_⟩
    rw [hmachine, List.append_nil]
    rfl

/-! ## Chunks one after the other -/

/-- Chunks have been answered one by one, and each answer has added its reports. -/
theorem after_appends {cs : List Chunk} (h : s.after cs = some t) :
    ∃ answers : List Answer, s.answers cs = answers.map some ∧
      (∀ a ∈ answers, a.outcome.Accounts a.reports) ∧
      t.diagnostics.reports.toList =
        s.diagnostics.reports.toList ++ answers.flatMap (·.reports) := by
  induction cs generalizing s with
  | nil =>
    cases h
    exact ⟨[], rfl, nofun, (List.append_nil _).symm⟩
  | cons c cs ih =>
    obtain ⟨⟨a, u⟩, hanswer, hafter⟩ := Option.bind_eq_some_iff.mp h
    obtain ⟨answers, heq, haccounts, hreports⟩ := ih hafter
    have haccounted := accounted_of_answer hanswer
    refine ⟨a :: answers, ?_, List.forall_mem_cons.mpr ⟨?_, haccounts⟩, ?_⟩
    · rw [Session.answers, hanswer, List.map_cons, ← heq]
    · exact (haccounted.accounts _).mpr rfl
    · rw [hreports, haccounted.appended, List.flatMap_cons, List.append_assoc]

/-- **After chunks, the record of a session tells how they were answered.** -/
theorem after_records {clock : Number} {capacity : Option Nat} {cs : List Chunk}
    (h : (start clock capacity).after cs = some t) :
    ∃ answers : List Answer, (start clock capacity).answers cs = answers.map some ∧
      t.diagnostics.Records answers := by
  obtain ⟨answers, heq, haccounts, hreports⟩ := after_appends h
  exact ⟨answers, heq, Diagnostics.records_of_reports haccounts hreports⟩

/-- **Outcomes, reports, flags and count agree.**

After every sequence of chunks, the reports are those of the answers so far, their count is the sum,
and the flags say whether some chunk so far ended in a compile error or in a run-time error. Whatever
chunk comes next, it only adds reports: none if it completes; at least one, all of them compile-time,
if it is a compile error, and then nothing is run; exactly one, a run-time one, if it is a run-time
error. -/
theorem outcomes_match_reports {clock : Number} {capacity : Option Nat} {cs : List Chunk}
    (h : (start clock capacity).after cs = some s) :
    (∃ answers : List Answer, (start clock capacity).answers cs = answers.map some ∧
      s.diagnostics.Records answers) ∧
    ∀ c a t, s.answer c = some (a, t) → Accounted s c a t :=
  ⟨after_records h, fun _ _ _ => accounted_of_answer⟩

/-- A chunk that completes, one with two compile errors, one that ends with a fault, and then one more
with a compile error. -/
theorem outcomes_match_reports_mixed :
    let cs : List Chunk :=
      [⟨.nan, 9, "let a=1;"⟩, ⟨.nan, 9, "return 1;{let b=1;let b=2;}"⟩, ⟨.nan, 9, "a();"⟩]
    let c : Chunk := ⟨.nan, 9, "a = ;"⟩
    ∃ s a t, (start .nan none).after cs = some s ∧ s.answer c = some (a, t) ∧
      a.outcome = .compileError ∧
      (∃ answers : List Answer, (start .nan none).answers cs = answers.map some ∧
        s.diagnostics.Records answers) ∧
      Accounted s c a t := by
  intro cs c
  have hrun : (((start .nan none).after cs).bind (·.answer c)).map (·.1.outcome) =
      some .compileError := by
    decide +kernel
  obtain ⟨⟨a, t⟩, hbind, houtcome⟩ := Option.map_eq_some_iff.mp hrun
  obtain ⟨s, hs, hanswer⟩ := Option.bind_eq_some_iff.mp hbind
  obtain ⟨hrecords, hnext⟩ := outcomes_match_reports hs
  exact ⟨s, a, t, hs, hanswer, houtcome, hrecords, hnext c a t hanswer⟩

end Session

end Scriptlet
