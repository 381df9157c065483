import Scriptlet.Proofs.Session.Answer
import Scriptlet.Proofs.Session.Like

/-!
# Chunks with compile errors

A chunk with compile errors is not run, but it does leave traces: its references have used up
identities, and their distances may have been noted. Nothing looks at them any more. So a session in
which such a chunk was given cannot be told from one in which it was not, but by the reports about it.

A session is told apart by its `answers`: for each chunk the outcome, the lines it writes and the
reports it adds. The clock is set before each chunk, to the same time in both sessions.

Results:
* `Session.answer_like`: sessions that are alike give the same answer and are alike after it.
* `Session.rejected_changes_nothing`: **a chunk with compile errors changes no later answer.**
-/

namespace Scriptlet

open List (Forall₂)
open Scope Run

/-- Compile errors are reported as such. -/
theorem phase_of_mem_reports {source : String} {ref : RefId} {d : Diagnostic}
    (h : d ∈ (compile source ref).reports) : d.phase = .compile := by
  unfold Compiled.reports compile at h
  dsimp only at h
  split_ifs at h
  · obtain ⟨e, -, rfl⟩ := List.mem_map.mp h
    rfl
  · rcases List.mem_append.mp h with h | h
    · obtain ⟨e, -, rfl⟩ := List.mem_map.mp h
      rfl
    · obtain ⟨e, -, rfl⟩ := List.mem_map.mp h
      rfl

/-- What can be seen of a chunk with compile errors: the reports. -/
def Answer.rejected (reports : List Diagnostic) : Answer := ⟨.compileError, [], reports⟩

namespace Session

/-! ## Sessions that are alike -/

/-- **Two sessions cannot be told apart by what they will do**: both have come about by running chunks,
and their machines are alike, at whatever time. Their reports may differ. -/
structure Alike (s s' : Session) : Prop where
  left : ∃ ps, Fits s ps
  right : ∃ ps, Fits s' ps
  machine (clock : Number) :
    (s.atTime clock).machine.Like (s.pairing Eq s') (s'.atTime clock).machine

/-- The same reports have been added in two sessions. -/
def SameReports (s s' t t' : Session) : Prop :=
  ∃ added, t.diagnostics.reports.toList = s.diagnostics.reports.toList ++ added ∧
    t'.diagnostics.reports.toList = s'.diagnostics.reports.toList ++ added

variable {s s' t t' : Session} {ps ps' : List (List Stmt)} {source : String}

theorem SameReports.refl (s s' : Session) : SameReports s s' s s' := ⟨[], by simp, by simp⟩

theorem SameReports.trans {u u' : Session} (h : SameReports s s' t t')
    (h' : SameReports t t' u u') : SameReports s s' u u' := by
  obtain ⟨added, hs, hs'⟩ := h
  obtain ⟨more, ht, ht'⟩ := h'
  exact ⟨added ++ more, by rw [ht, hs, List.append_assoc], by rw [ht', hs', List.append_assoc]⟩

theorem SameReports.since (h : SameReports s s' t t') :
    t.reportsSince s.diagnostics.count = t'.reportsSince s'.diagnostics.count := by
  obtain ⟨added, hs, hs'⟩ := h
  rw [reportsSince_eq hs, reportsSince_eq hs']

theorem Alike.atTime (h : Alike s s') (clock : Number) :
    Alike (s.atTime clock) (s'.atTime clock) :=
  ⟨h.left.imp fun _ hs => hs.atTime clock, h.right.imp fun _ hs => hs.atTime clock, h.machine⟩

/-- **A chunk without reports is kept alike**: in both sessions its references have the same
distances. -/
theorem keep_like (hs : Fits s ps) (hs' : Fits s' ps') (hreports : reportsOf source = []) :
    Forall₂ (Stmt.Like ((s.keep (compile source s.nextRef)).pairing Eq
        (s'.keep (compile source s'.nextRef))))
      (compile source s.nextRef).program (compile source s'.nextRef).program := by
  have hkept := hs.keep ((reports_eq source _).trans hreports)
  have hkept' := hs'.keep ((reports_eq source _).trans hreports)
  exact likeAll_pairing (compile_like source s.nextRef s'.nextRef).2.2
    (hkept.resolved _ List.mem_cons_self).clean (hkept.given _ List.mem_cons_self)
    ⟨rfl, rfl, rfl, .nil⟩ (.refl _) (hkept'.resolved _ List.mem_cons_self).clean.bindings
    fun b hb => hkept'.given _ List.mem_cons_self _ (ref_mem_refsAll hb)

/-- Machines that are alike are so at another time. -/
theorem like_atTime {P : Pairing} (h : s.machine.Like P s'.machine) (clock : Number) :
    (s.atTime clock).machine.Like P (s'.atTime clock).machine :=
  ⟨h.store, h.current, h.nextId, h.output, h.capacity, rfl⟩

/-- Programs that answer each other leave sessions that are alike, with the same reports added. -/
theorem execute_like {program program' : List Stmt} (hs : Fits s (program :: ps))
    (hs' : Fits s' (program' :: ps')) (hm : s.machine.Like (s.pairing Eq s') s'.machine)
    (hprogram : Forall₂ (Stmt.Like (s.pairing Eq s')) program program') (steps : Nat) :
    Option.Rel (fun r r' => r.1 = r'.1 ∧ Alike r.2 r'.2 ∧ SameReports s s' r.2 r'.2)
      (s.execute steps program) (s'.execute steps program') := by
  have hexecuted := executed_like hm hprogram steps
  have hfits {r : Outcome × Session} (h : s.execute steps program = some r) :=
    hs.execute List.mem_cons_self h
  have hfits' {r : Outcome × Session} (h : s'.execute steps program' = some r) :=
    hs'.execute List.mem_cons_self h
  generalize s.execute steps program = r at hexecuted hfits ⊢
  generalize s'.execute steps program' = r' at hexecuted hfits' ⊢
  cases hexecuted with
  | completed hm =>
    exact .some ⟨rfl, ⟨⟨_, hfits rfl⟩, ⟨_, hfits' rfl⟩, like_atTime hm⟩, .refl s s'⟩
  | @fault f _ _ _ hf hm =>
    refine .some ⟨rfl, ⟨⟨_, hfits rfl⟩, ⟨_, hfits' rfl⟩, like_atTime hm⟩, [f.diagnostic], ?_, ?_⟩
    · exact Array.toList_push
    · rw [hf.eq]
      exact Array.toList_push
  | exhausted => exact .none

/-- **A chunk with reports is rejected**, in whatever session. -/
theorem run_rejected (s : Session) (steps : Nat) (hreports : reportsOf source ≠ []) :
    s.run steps source =
      some (.compileError, s.reject (compile source s.nextRef) (reportsOf source)) := by
  have hc := reports_eq source s.nextRef
  rw [run_eq_rejected steps (hc ▸ hreports), hc]

theorem reports_reject (s : Session) (c : Compiled) (reports : List Diagnostic) :
    (s.reject c reports).diagnostics.reports.toList =
      s.diagnostics.reports.toList ++ reports := by
  simp [reject, Diagnostics.reportAll]

/-- **A chunk is run alike**, whether it has reports or not. -/
theorem run_like (h : Alike s s') (hclock : s.machine.clock = s'.machine.clock) (steps : Nat)
    (source : String) :
    Option.Rel (fun r r' => r.1 = r'.1 ∧ Alike r.2 r'.2 ∧ SameReports s s' r.2 r'.2)
      (s.run steps source) (s'.run steps source) := by
  obtain ⟨ps, hs⟩ := h.left
  obtain ⟨ps', hs'⟩ := h.right
  by_cases hreports : reportsOf source = []
  · have hc := (reports_eq source s.nextRef).trans hreports
    have hc' := (reports_eq source s'.nextRef).trans hreports
    have hm : s.machine.Like (s.pairing Eq s') s'.machine := by
      have := h.machine s.machine.clock
      exact ⟨this.store, this.current, this.nextId, this.output, this.capacity, hclock⟩
    rw [run_eq_execute steps hc, run_eq_execute steps hc']
    exact execute_like (hs.keep hc) (hs'.keep hc')
      (keep_machine_like hm (extends_keep s' source) (machine_keep s' _))
      (keep_like hs hs' hreports) steps
  · rw [run_rejected s steps hreports, run_rejected s' steps hreports]
    have hwithin : (s.pairing Eq s').Within _ := pairing_within
      (extends_reject s source (reportsOf source)) (extends_reject s' source (reportsOf source))
    exact .some ⟨rfl, ⟨⟨ps, hs.reject _ _⟩, ⟨ps', hs'.reject _ _⟩,
      fun clock => (h.machine clock).mono hwithin⟩, reportsOf source, reports_reject _ _ _,
      reports_reject _ _ _⟩

/-- **A chunk is answered alike.** -/
theorem answer_like (h : Alike s s') (c : Chunk) :
    Option.Rel (fun r r' => r.1 = r'.1 ∧ Alike r.2 r'.2 ∧ SameReports s s' r.2 r'.2)
      (s.answer c) (s'.answer c) := by
  have houtput : s.machine.output = s'.machine.output := (h.machine c.clock).output
  have hrun := run_like (h.atTime c.clock) rfl c.steps c.source
  unfold answer
  generalize (s.atTime c.clock).run c.steps c.source = r at hrun ⊢
  generalize (s'.atTime c.clock).run c.steps c.source = r' at hrun ⊢
  cases hrun with
  | none => exact .none
  | @some r r' hr =>
    obtain ⟨outcome, t⟩ := r
    obtain ⟨outcome', t'⟩ := r'
    obtain ⟨rfl, halike, hreports⟩ := hr
    have hsince : t.reportsSince s.diagnostics.count = t'.reportsSince s'.diagnostics.count :=
      hreports.since
    have hlines : t.machine.output = t'.machine.output := (halike.machine c.clock).output
    refine .some ⟨?_, halike, hreports⟩
    simp only [linesSince, houtput, hlines, hsince]

/-- **Chunks are answered alike**, one after the other. -/
theorem answers_like (h : Alike s s') (cs : List Chunk) : s.answers cs = s'.answers cs := by
  induction cs generalizing s s' with
  | nil => rfl
  | cons c cs ih =>
    have hanswer := answer_like h c
    unfold answers
    generalize s.answer c = r at hanswer ⊢
    generalize s'.answer c = r' at hanswer ⊢
    cases hanswer with
    | none => rfl
    | some hr =>
      obtain ⟨ha, halike, -⟩ := hr
      simp only [ha, ih halike]

/-- Sessions that are alike are so after the same chunks, and the same reports have been added. -/
theorem after_like (h : Alike s s') (cs : List Chunk) :
    Option.Rel (fun t t' => Alike t t' ∧ SameReports s s' t t') (s.after cs) (s'.after cs) := by
  induction cs generalizing s s' with
  | nil => exact .some ⟨h, .refl s s'⟩
  | cons c cs ih =>
    have hanswer := answer_like h c
    unfold after
    generalize s.answer c = r at hanswer ⊢
    generalize s'.answer c = r' at hanswer ⊢
    cases hanswer with
    | none => exact .none
    | some hr =>
      obtain ⟨-, halike, hreports⟩ := hr
      exact relOption_imp (fun _ _ ht => ⟨ht.1, hreports.trans ht.2⟩) (ih halike)

theorem alike_start (clock : Number) (capacity : Option Nat) :
    Alike (start clock capacity) (start clock capacity) := by
  have hfits := (History.start clock capacity).fits
  exact ⟨⟨_, hfits⟩, ⟨_, hfits⟩, fun clock => Machine.like_initial _ clock capacity⟩

/-! ## A chunk with compile errors -/

/-- A chunk without reports does not end in a compile error. -/
theorem outcome_ne_compileError {steps : Nat} {outcome : Outcome} (hreports : reportsOf source = [])
    (hrun : s.run steps source = some (outcome, t)) : outcome ≠ .compileError := by
  rw [run_eq_execute steps ((reports_eq source _).trans hreports)] at hrun
  unfold execute at hrun
  split at hrun <;> cases hrun <;> exact Outcome.noConfusion

theorem answer_rejected (s : Session) (c : Chunk) (hreports : reportsOf c.source ≠ []) :
    s.answer c = some (.rejected (reportsOf c.source),
      (s.atTime c.clock).reject (compile c.source s.nextRef) (reportsOf c.source)) :=
  answer_eq (run_rejected _ c.steps hreports) (List.append_nil _).symm (reports_reject _ _ _)

/-- A session that has rejected a chunk is like one that has not. -/
theorem Alike.reject (h : Alike s s') (clock : Number) (source : String) :
    Alike ((s.atTime clock).reject (compile source s.nextRef) (reportsOf source)) s' := by
  refine ⟨h.left.imp fun _ hs => (hs.atTime clock).reject _ _, h.right, fun clock' => ?_⟩
  exact (h.machine clock').mono (pairing_within (extends_reject (s.atTime clock) _ _) (.refl s'))

/-- **All that a chunk with compile errors leaves to be seen**: its reports, among the others. -/
structure DiffersBy (reports : List Diagnostic) (t t' : Session) : Prop where
  alike : Alike t t'
  inserted : ∃ earlier later, t'.diagnostics.reports.toList = earlier ++ later ∧
    t.diagnostics.reports.toList = earlier ++ reports ++ later
  count : t.diagnostics.count = t'.diagnostics.count + reports.length
  hadCompileError : t.diagnostics.hadCompileError = true
  hadRuntimeError : t.diagnostics.hadRuntimeError = t'.diagnostics.hadRuntimeError

/-- The flags and the count follow from the reports. -/
theorem differsBy_of_reports {earlier later : List Diagnostic} (halike : Alike t t')
    (hreports : reportsOf source ≠ [])
    (ht' : t'.diagnostics.reports.toList = earlier ++ later)
    (ht : t.diagnostics.reports.toList = earlier ++ reportsOf source ++ later) :
    DiffersBy (reportsOf source) t t' := by
  refine ⟨halike, ⟨earlier, later, ht', ht⟩, ?_, ?_, ?_⟩
  · unfold Diagnostics.count
    rw [← Array.length_toList, ← Array.length_toList, ht, ht']
    simp only [List.length_append]
    omega
  · obtain ⟨d, hd⟩ := List.exists_mem_of_ne_nil _ hreports
    unfold Diagnostics.hadCompileError
    rw [← Array.any_toList, ht]
    exact List.any_eq_true.mpr ⟨d, by simp [hd], decide_eq_true (phase_of_mem_reports hd)⟩
  · have hnone : (reportsOf source).any (·.phase = .runtime) = false := by
      refine List.any_eq_false.mpr fun d hd => ?_
      simp [phase_of_mem_reports hd]
    unfold Diagnostics.hadRuntimeError
    rw [← Array.any_toList, ← Array.any_toList, ht, ht']
    simp only [List.any_append, hnone, Bool.or_false]

/-- **Chunks after a rejected one are answered as if it had not been given.** -/
theorem answers_after_rejected (h : Alike s s) (c : Chunk) (hreports : reportsOf c.source ≠ [])
    (Q : List Chunk) :
    s.answers (c :: Q) = some (.rejected (reportsOf c.source)) :: s.answers Q ∧
      Option.Rel (DiffersBy (reportsOf c.source)) (s.after (c :: Q)) (s.after Q) := by
  have halike := h.reject c.clock c.source
  rw [answers, after, answer_rejected s c hreports]
  refine ⟨congrArg _ (answers_like halike Q), relOption_imp ?_ (after_like halike Q)⟩
  rintro t t' ⟨halike, added, ht, ht'⟩
  rw [reports_reject] at ht
  exact differsBy_of_reports halike hreports ht' ht

/-- **A chunk with compile errors changes nothing but the reports.**

Whether a text has compile errors, and which, does not depend on the session. Such a chunk writes
nothing and leaves the machine as it is. Given between other chunks, it has no influence on the
answers to those; of the session after them, it changes the reports, their count and the flag for
compile errors. -/
theorem rejected_changes_nothing (source : String) :
    (∀ (s : Session) (steps : Nat),
      (reportsOf source = [] → ∀ outcome t, s.run steps source = some (outcome, t) →
        outcome ≠ .compileError) ∧
      (reportsOf source ≠ [] → ∃ t, s.run steps source = some (.compileError, t) ∧
        t.machine = s.machine ∧
        t.diagnostics = s.diagnostics.reportAll (reportsOf source))) ∧
    (reportsOf source ≠ [] → ∀ (clock : Number) (capacity : Option Nat) (P Q : List Chunk)
        (now : Number) (steps : Nat),
      let s := start clock capacity
      let c : Chunk := ⟨now, steps, source⟩
      (∃ later, s.answers (P ++ Q) = s.answers P ++ later ∧
        s.answers (P ++ c :: Q) =
          s.answers P ++ (s.after P).map (fun _ => .rejected (reportsOf source)) :: later) ∧
      Option.Rel (DiffersBy (reportsOf source)) (s.after (P ++ c :: Q)) (s.after (P ++ Q))) := by
  refine ⟨fun s steps => ⟨fun hreports _ _ => outcome_ne_compileError hreports, fun hreports => ?_⟩,
    fun hreports clock capacity P Q now steps => ?_⟩
  · exact ⟨_, run_rejected s steps hreports, rfl, rfl⟩
  · intro s c
    have hafter : Option.Rel _ (s.after P) (s.after P) := after_like (alike_start clock capacity) P
    rw [answers_append, answers_append, after_append, after_append]
    cases hP : s.after P with
    | none => exact ⟨⟨_, rfl, rfl⟩, .none⟩
    | some t =>
      rw [hP] at hafter
      cases hafter with
      | some ht =>
        obtain ⟨hanswers, hdiffers⟩ := answers_after_rejected ht.1 c hreports Q
        exact ⟨⟨t.answers Q, rfl, congrArg _ hanswers⟩, hdiffers⟩

/-- An error in a scope, after distances have been noted, in a chunk between a declaration and a
closure over it. -/
theorem rejected_changes_nothing_scope :
    let s := start .nan none
    let source := "{let b=1;console.log(b);let b=2;}"
    let P : List Chunk := [⟨.nan, 9, "let a=1;"⟩]
    let Q : List Chunk := [⟨.nan, 20, "{let b=a;function f(){return b;}console.log(f());}"⟩]
    reportsOf source ≠ [] ∧
      (∃ later, s.answers (P ++ Q) = s.answers P ++ later ∧
        s.answers (P ++ ⟨.nan, 9, source⟩ :: Q) =
          s.answers P ++ (s.after P).map (fun _ => .rejected (reportsOf source)) :: later) ∧
      Option.Rel (DiffersBy (reportsOf source))
        (s.after (P ++ ⟨.nan, 9, source⟩ :: Q)) (s.after (P ++ Q)) := by
  intro s source P Q
  have hreports : reportsOf source ≠ [] := by decide +kernel
  exact ⟨hreports, (rejected_changes_nothing source).2 hreports .nan none P Q .nan 9⟩

end Session

end Scriptlet
