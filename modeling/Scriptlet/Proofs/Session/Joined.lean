import Scriptlet.Proofs.Session.Answer
import Scriptlet.Proofs.Session.Parts

/-!
# Running a program chunk by chunk

A program can be given to a session a few lines at a time, or all at once. Texts without reports that
are given one after the other do what the texts below each other do, part by part: when the whole has
run the parts of some texts, its machine is alike to that of the session to which those texts were
given (`Tracks`). It does not matter that the scopes of later texts are looked at before earlier ones
are run.

A fault stands on a line of a text. Which text it is from is seen when empty lines are put above the
texts: the fault moves with its own text. In the whole it is below the texts before its own.

Results:
* `Session.answered_part`: a text and its part do the same.
* `Session.completed_parts`: so do texts, one after the other.
* `Session.joined_runs_as_chunks`: **a program is run chunk by chunk as it is run at once.**
-/

namespace Scriptlet

open List (Forall₂)
open Scope Run

/-! ## Programs one after the other -/

theorem interpret_cons (σ : Scoping) (n : Nat) (st : Stmt) (ss : List Stmt) (m : Machine) :
    interpret σ n (st :: ss) m =
      match interpret σ n [st] m with
      | .ok _ m' => interpret σ n ss m'
      | r => r := by
  have hfirst (rest : List Stmt) :
      execProgram σ n (st :: rest) m = Exec.bind (exec σ n st) (fun _ => execProgram σ n rest) m :=
    rfl
  unfold interpret
  rw [hfirst ss, hfirst []]
  unfold Exec.bind
  cases exec σ n st m <;> rfl

theorem interpret_append (σ : Scoping) (n : Nat) (p q : List Stmt) (m : Machine) :
    interpret σ n (p ++ q) m =
      match interpret σ n p m with
      | .ok _ m' => interpret σ n q m'
      | r => r := by
  induction p generalizing m with
  | nil => rfl
  | cons st ss ih =>
    rw [List.cons_append, interpret_cons σ n st (ss ++ q), interpret_cons σ n st ss]
    cases interpret σ n [st] m with
    | ok a m' => exact ih m'
    | fault f m' => rfl
    | exhausted => rfl

/-! ## How chunks end -/

/-- The report so many lines further down. -/
def Diagnostic.lowered (n : Nat) (d : Diagnostic) : Diagnostic := { d with line := d.line + n }

/-- **How the last of some chunks ends**, after it has written lines: it completes, or there is a fault
at a token of the `k`-th chunk. The report of the fault is given with the line inside that chunk. -/
inductive Ending where
  | completed (lines : List String)
  | fault (lines : List String) (k : Nat) (report : Diagnostic)

namespace Ending

/-- The answer if other lines have been written earlier and there are so many lines above each chunk. -/
def answer (earlier : List String) (above : Nat → Nat) : Ending → Answer
  | completed lines => ⟨.completed, earlier ++ lines, []⟩
  | fault lines k report => ⟨.runtimeError, earlier ++ lines, [report.lowered (above k)]⟩

/-- A fault is at a line of its chunk. -/
def Within (texts : List String) : Ending → Prop
  | completed _ => True
  | fault _ k report =>
    ∃ text, texts[k]? = some text ∧ 1 ≤ report.line ∧ report.line ≤ lineCount text

end Ending

/-- **A line of the whole is a line of one text only.** -/
theorem row_unique {texts : List String} {k k' m m' : Nat} {text text' : String}
    (h : texts[k]? = some text) (hm : 1 ≤ m ∧ m ≤ lineCount text)
    (h' : texts[k']? = some text') (hm' : 1 ≤ m' ∧ m' ≤ lineCount text')
    (heq : m + linesBefore texts k = m' + linesBefore texts k') : k = k' ∧ m = m' := by
  induction texts generalizing k k' with
  | nil => cases h
  | cons first texts ih =>
    cases k with
    | zero =>
      cases h
      cases k' with
      | zero => exact ⟨rfl, heq⟩
      | succ k' =>
        rw [linesBefore_succ, show linesBefore (text :: texts) 0 = 0 from rfl] at heq
        omega
    | succ k =>
      cases k' with
      | zero =>
        cases h'
        rw [linesBefore_succ, show linesBefore (text' :: texts) 0 = 0 from rfl] at heq
        omega
      | succ k' =>
        rw [linesBefore_succ, linesBefore_succ] at heq
        obtain ⟨rfl, rfl⟩ := ih h h' (by omega)
        exact ⟨rfl, rfl⟩

/-- The answer of the whole says how the last chunk ended. -/
theorem Ending.eq_of_answer_eq {texts : List String} {earlier : List String} {e e' : Ending}
    (he : e.Within texts) (he' : e'.Within texts)
    (h : e.answer earlier (linesBefore texts) = e'.answer earlier (linesBefore texts)) : e = e' := by
  cases e with
  | completed lines =>
    cases e' with
    | completed lines' =>
      rw [List.append_cancel_left (Answer.mk.inj h).2.1]
    | fault lines' k' d' => cases h
  | fault lines k d =>
    cases e' with
    | completed lines' => cases h
    | fault lines' k' d' =>
      obtain ⟨-, hlines, hreports⟩ := Answer.mk.inj h
      obtain ⟨hphase, hsum, hplace, hmessage⟩ := Diagnostic.mk.inj (List.cons.inj hreports).1
      obtain ⟨text, htext, hd⟩ := he
      obtain ⟨text', htext', hd'⟩ := he'
      obtain ⟨rfl, hline⟩ := row_unique htext hd htext' hd' hsum
      cases List.append_cancel_left hlines
      obtain ⟨phase, line, place, message⟩ := d
      cases hphase
      cases hline
      cases hplace
      cases hmessage
      rfl

theorem Ending.unique {texts : List String} {earlier : List String} {o o' : Option Ending}
    (ho : ∀ e ∈ o, e.Within texts) (ho' : ∀ e ∈ o', e.Within texts)
    (h : o.map (·.answer earlier (linesBefore texts)) =
      o'.map (·.answer earlier (linesBefore texts))) : o = o' := by
  cases o with
  | none =>
    cases o' with
    | none => rfl
    | some e' => cases h
  | some e =>
    cases o' with
    | none => cases h
    | some e' => rw [Ending.eq_of_answer_eq (ho e rfl) (ho' e' rfl) (Option.some.inj h)]

namespace Session

/-- **A program is run part by part**, up to the first part that does not complete. -/
theorem execute_append (s : Session) (steps : Nat) (p q : List Stmt) :
    s.execute steps (p ++ q) =
      match s.execute steps p with
      | some (.completed, t) => t.execute steps q
      | r => r := by
  unfold execute
  rw [interpret_append]
  cases interpret s.scoping steps p s.machine <;> rfl

/-! ## A session that keeps up with another one -/

/-- **A session to which texts are given keeps up with one that runs them all**: their machines are
alike, and for the first it is still the same time. -/
structure Tracks (line : Nat → Nat → Prop) (clock : Number) (s w : Session) : Prop where
  fits : ∃ ps, Fits s ps
  machine : s.machine.Like (s.pairing line w) w.machine
  clock : s.machine.clock = clock

/-- The session knows the distances that were found in a walk. -/
structure Knows (w : Session) (T : State) : Prop where
  bound (b : Binding) (h : b ∈ T.bindings) : w.distances[b.ref]? = b.distance
  given (b : Binding) (h : b ∈ T.bindings) : b.ref < w.nextRef

/-- **How a text is answered, and how its part of the whole ends.** -/
inductive Answered (line : Nat → Nat → Prop) (clock : Number) (w : Session) :
    Option (Answer × Session) → Option (Outcome × Session) → Prop
  | completed {t : Session} {m : Machine} {lines : List String}
      (ht : Tracks line clock t { w with machine := m })
      (hlines : m.output.toList = w.machine.output.toList ++ lines) :
    Answered line clock w (some (⟨.completed, lines, []⟩, t))
      (some (.completed, { w with machine := m }))
  | fault {t : Session} {m : Machine} {lines : List String} {f f' : Fault} (hf : f.Like line f')
      (hlines : m.output.toList = w.machine.output.toList ++ lines) :
    Answered line clock w (some (⟨.runtimeError, lines, [f.diagnostic]⟩, t))
      (some (.runtimeError,
        { w with machine := m, diagnostics := w.diagnostics.report f'.diagnostic }))
  | exhausted : Answered line clock w none none

variable {line : Nat → Nat → Prop} {clock : Number} {s w : Session} {T : State}

/-- **A text and its part do the same.** -/
theorem answered_part {text : String} {part : List Stmt} (h : Tracks line clock s w)
    (hw : Knows w T) (hpart : Part line T text part) (steps : Nat) :
    Answered line clock w (s.answer ⟨clock, steps, text⟩) (w.execute steps part) := by
  obtain ⟨ps, hs⟩ := h.fits
  obtain ⟨u, hu, hT⟩ := hpart.walked
  have hreports : (compile text s.nextRef).reports = [] := (reports_eq _ _).trans hpart.clean
  have htime : s.atTime clock = s := by
    rw [← h.clock]
    rfl
  have hkept := hs.keep hreports
  have hprogram := likeAll_pairing (hpart.reads s.nextRef)
    (hkept.resolved _ List.mem_cons_self).clean (hkept.given _ List.mem_cons_self) hu hT
    hw.bound hw.given
  have hexecuted := executed_like (keep_machine_like h.machine (.refl w) rfl) hprogram steps
  have hrun : (s.atTime clock).run steps text =
      (s.keep (compile text s.nextRef)).execute steps (compile text s.nextRef).program := by
    rw [htime, run_eq_execute steps hreports]
  have houtput {m m' : Machine} {lines : List String} (hm : m.output = m'.output)
      (hlines : s.machine.output.toList ++ lines = m.output.toList) :
      m'.output.toList = w.machine.output.toList ++ lines := by
    rw [← hm, ← hlines, h.machine.output]
  generalize hr : (s.keep (compile text s.nextRef)).execute steps
    (compile text s.nextRef).program = r at hexecuted hrun
  generalize w.execute steps part = r' at hexecuted ⊢
  cases hexecuted with
  | completed hm =>
    obtain ⟨hfits, ⟨lines, hlines⟩, hclock⟩ := hkept.executed List.mem_cons_self hr
    rw [answer_eq (c := ⟨clock, steps, text⟩) hrun hlines.symm (List.append_nil _).symm]
    exact .completed ⟨⟨_, hfits⟩, hm, hclock.trans h.clock⟩ (houtput hm.output hlines)
  | fault hf hm =>
    obtain ⟨-, ⟨lines, hlines⟩, -⟩ := hkept.executed List.mem_cons_self hr
    rw [answer_eq (c := ⟨clock, steps, text⟩) hrun hlines.symm Array.toList_push]
    exact .fault hf (houtput hm.output hlines)
  | exhausted =>
    unfold answer
    rw [hrun]
    exact .exhausted

/-- The lines that were written in all of the answers. -/
def written (answers : List (Option Answer)) : List String :=
  answers.flatMap fun a => a.elim [] Answer.lines

/-- **Texts that complete and their parts do the same.** -/
theorem completed_parts {texts : List String} {parts : List (List Stmt)} {steps : Nat}
    (h : Tracks line clock s w) (hw : Knows w T) (hparts : Forall₂ (Part line T) texts parts)
    (hcompleted : ∀ a ∈ s.answers (texts.map (Chunk.mk clock steps)),
      a.map Answer.outcome = some .completed) :
    ∃ t m, s.after (texts.map (Chunk.mk clock steps)) = some t ∧
      w.execute steps parts.flatten = some (.completed, { w with machine := m }) ∧
      Tracks line clock t { w with machine := m } ∧
      m.output.toList = w.machine.output.toList ++
        written (s.answers (texts.map (Chunk.mk clock steps))) := by
  induction hparts generalizing s w with
  | nil => exact ⟨s, w.machine, rfl, rfl, h, (List.append_nil _).symm⟩
  | @cons text part texts parts hpart _ ih =>
    have hanswered := answered_part h hw hpart steps
    rw [List.map_cons, answers] at hcompleted
    rw [List.map_cons, answers, after, List.flatten_cons, execute_append]
    generalize s.answer ⟨clock, steps, text⟩ = r at hanswered hcompleted ⊢
    generalize w.execute steps part = r' at hanswered ⊢
    cases hanswered with
    | @completed t m lines ht hlines =>
      obtain ⟨t', m', hafter, hexecute, htracks, houtput⟩ := ih ht ⟨hw.bound, hw.given⟩
        fun a ha => hcompleted a (List.mem_cons_of_mem _ ha)
      refine ⟨t', m', hafter, hexecute, htracks, ?_⟩
      rw [houtput, hlines, List.append_assoc]
      rfl
    | fault => cases hcompleted _ List.mem_cons_self
    | exhausted => cases hcompleted _ List.mem_cons_self

/-- Texts that complete in one session are answered in the same way in another one, if both keep up
with the whole. -/
theorem answers_eq_of_completed {line' : Nat → Nat → Prop} {s' : Session}
    {texts texts' : List String} {parts : List (List Stmt)} {steps : Nat}
    (h : Tracks line clock s w) (h' : Tracks line' clock s' w) (hw : Knows w T)
    (hparts : Forall₂ (Part line T) texts parts) (hparts' : Forall₂ (Part line' T) texts' parts)
    (hcompleted : ∀ a ∈ s.answers (texts.map (Chunk.mk clock steps)),
      a.map Answer.outcome = some .completed) :
    s'.answers (texts'.map (Chunk.mk clock steps)) =
      s.answers (texts.map (Chunk.mk clock steps)) := by
  induction hparts generalizing s s' w texts' with
  | nil =>
    cases hparts'
    rfl
  | @cons text part texts parts hpart _ ih =>
    cases hparts' with
    | @cons text' _ texts' _ hpart' hparts' =>
      have hanswered := answered_part h hw hpart steps
      have hanswered' := answered_part h' hw hpart' steps
      rw [List.map_cons, answers] at hcompleted
      rw [List.map_cons, List.map_cons, answers, answers]
      generalize s.answer ⟨clock, steps, text⟩ = r at hanswered hcompleted ⊢
      generalize s'.answer ⟨clock, steps, text'⟩ = r' at hanswered' ⊢
      generalize w.execute steps part = x at hanswered hanswered'
      cases hanswered with
      | @completed t m lines ht hlines =>
        cases hanswered' with
        | @completed t' _ lines' ht' hlines' =>
          obtain rfl : lines' = lines := List.append_cancel_left (hlines'.symm.trans hlines)
          have hrest := ih ht ht' ⟨hw.bound, hw.given⟩ hparts'
            fun a ha => hcompleted a (List.mem_cons_of_mem _ ha)
          exact congrArg _ hrest
      | fault => cases hcompleted _ List.mem_cons_self
      | exhausted => cases hcompleted _ List.mem_cons_self

/-- **How the last chunk ends**, on its own and as the last part of the whole. -/
theorem Answered.exists_ending {texts : List String} {above : Nat → Nat}
    {r : Option (Answer × Session)} {r' : Option (Outcome × Session)}
    (h : Answered (Rows texts above) clock w r r') (hw : w.diagnostics = {}) :
    ∃ ending : Option Ending, (∀ e ∈ ending, e.Within texts) ∧
      r.map Prod.fst = ending.map (·.answer [] above) ∧
      (r'.map fun (outcome, t) => (⟨outcome, t.linesSince 0, t.reportsSince 0⟩ : Answer)) =
        ending.map (·.answer w.machine.output.toList (linesBefore texts)) := by
  cases h with
  | @completed t m lines ht hlines =>
    refine ⟨some (.completed lines), fun e he => ?_, rfl, ?_⟩
    · cases he
      trivial
    · simp [Ending.answer, linesSince, reportsSince, hlines, hw]
  | @fault t m lines f f' hf hlines =>
    obtain ⟨k, text, row, htext, hle, hge, hrow, hrow'⟩ := hf.site.line
    have hreport : f.diagnostic = .lowered (above k) { f.diagnostic with line := row } := by
      unfold Fault.diagnostic
      rw [hrow]
      rfl
    have hreport' : f'.diagnostic =
        .lowered (linesBefore texts k) { f.diagnostic with line := row } := by
      unfold Fault.diagnostic
      rw [hrow', ← hf.site.lexeme, ← hf.cause]
      rfl
    refine ⟨some (.fault lines k { f.diagnostic with line := row }), fun e he => ?_, ?_, ?_⟩
    · cases he
      exact ⟨text, htext, hle, hge⟩
    · rw [Option.map_some, hreport]
      rfl
    · simp [Ending.answer, linesSince, reportsSince, hlines, hw, Diagnostics.report, hreport']
  | exhausted => exact ⟨none, nofun, rfl, rfl⟩

theorem answers_singleton (s : Session) (c : Chunk) :
    s.answers [c] = [(s.answer c).map Prod.fst] := by
  unfold answers
  cases s.answer c with
  | none => rfl
  | some r => rfl

theorem forall₂_concat {α β : Type} {R : α → β → Prop} {as : List α} {bs : List β} {a : α} {b : β}
    (h : Forall₂ R (as ++ [a]) (bs ++ [b])) : Forall₂ R as bs ∧ R a b := by
  have := List.forall₂_reverse_iff.mpr h
  rw [List.reverse_append, List.reverse_append] at this
  cases this with
  | cons hab hrest => exact ⟨List.forall₂_reverse_iff.mp hrest, hab⟩

/-- The session that runs the whole knows what was found in the walk over it. -/
theorem knows_keep (clock : Number) (capacity : Option Nat) {source : String}
    (h : reportsOf source = []) :
    Knows ((start clock capacity).keep (compile source 0))
      (walkStmts (compile source 0).program {}) := by
  have hkept : Fits ((start clock capacity).keep (compile source 0)) [(compile source 0).program] :=
    (History.start clock capacity).fits.keep h
  exact ⟨(hkept.resolved _ List.mem_cons_self).clean.bindings,
    fun b hb => hkept.given _ List.mem_cons_self _ (ref_mem_refsAll hb)⟩

theorem tracks_start (line : Nat → Nat → Prop) (clock : Number) (capacity : Option Nat)
    (c : Compiled) : Tracks line clock (start clock capacity) ((start clock capacity).keep c) :=
  ⟨⟨[], (History.start clock capacity).fits⟩, Machine.like_initial _ clock capacity, rfl⟩

/-- The answer to the first chunk of a session is all that can be seen of it. -/
theorem answer_start (clock : Number) (capacity : Option Nat) (steps : Nat) {source : String}
    (h : reportsOf source = []) :
    ((start clock capacity).answer ⟨clock, steps, source⟩).map Prod.fst =
      (((start clock capacity).keep (compile source 0)).execute steps
        (compile source 0).program).map fun (outcome, t) =>
          (⟨outcome, t.linesSince 0, t.reportsSince 0⟩ : Answer) := by
  have hrun : ((start clock capacity).atTime clock).run steps source =
      ((start clock capacity).keep (compile source 0)).execute steps (compile source 0).program :=
    run_eq_execute steps h
  unfold answer
  simp only [hrun, Option.map_map]
  rfl

/-- How the whole ends, and the chunks with empty lines above them. -/
theorem exists_ending {capacity : Option Nat} {steps : Nat} {texts : List String} {last : String}
    (hclean : ∀ text ∈ texts ++ [last], reportsOf text = [])
    (hcompleted : ∀ a ∈ (start clock capacity).answers (texts.map (Chunk.mk clock steps)),
      a.map Answer.outcome = some .completed) (above : Nat → Nat) :
    let s := start clock capacity
    let earlier := s.answers (texts.map (Chunk.mk clock steps))
    ∃ ending : Option Ending, (∀ e ∈ ending, e.Within (texts ++ [last])) ∧
      s.answers ((spaced above (texts ++ [last])).map (Chunk.mk clock steps)) =
        earlier ++ [ending.map (·.answer [] above)] ∧
      s.answers [⟨clock, steps, joined (texts ++ [last])⟩] =
        [ending.map (·.answer (written earlier) (linesBefore (texts ++ [last])))] := by
  intro s earlier
  obtain ⟨hreports, parts, hprogram, hparts⟩ := exists_parts hclean
  -- The last part is that of the last text, and the others are those of the others.
  obtain ⟨init, final, rfl⟩ : ∃ init final, parts = init ++ [final] := by
    rcases parts.eq_nil_or_concat with rfl | hconcat
    · have := (hparts above).length_eq
      simp [spaced] at this
    · simpa only [List.concat_eq_append] using hconcat
  have hsplit (above : Nat → Nat) := forall₂_concat (spaced_concat above texts last ▸ hparts above)
  have hknows := knows_keep clock capacity hreports
  rw [hprogram] at hknows
  have htracks (above : Nat → Nat) := tracks_start (Rows (texts ++ [last]) above) clock capacity
    (compile (joined (texts ++ [last])) 0)
  have hearlier : s.answers ((spaced above texts).map (Chunk.mk clock steps)) = earlier := by
    have hplain := (hsplit fun _ => 0).1
    rw [spaced_zero] at hplain
    exact answers_eq_of_completed (htracks fun _ => 0) (htracks above) hknows hplain
      (hsplit above).1 hcompleted
  obtain ⟨t, m, hafter, hexecute, ht, houtput⟩ := completed_parts (htracks above) hknows
    (hsplit above).1 (by rwa [hearlier])
  have hanswered := answered_part ht ⟨hknows.bound, hknows.given⟩ (hsplit above).2 steps
  obtain ⟨ending, hwithin, hlast, hwhole⟩ := hanswered.exists_ending rfl
  refine ⟨ending, hwithin, ?_, ?_⟩
  · rw [spaced_concat, List.map_append, answers_append, hafter, hearlier, List.map_singleton]
    change earlier ++ t.answers [_] = _
    rw [answers_singleton, hlast]
  · have houtput : m.output.toList = written earlier := by
      rw [houtput, hearlier]
      rfl
    rw [answers_singleton, answer_start clock capacity steps hreports, hprogram, List.flatten_append,
      execute_append, hexecute, List.flatten_singleton, ← houtput]
    exact congrArg (fun a => [a]) hwhole

/-- **A program is run chunk by chunk as it is run at once.**

Texts without reports are given to a session one after the other, and all but the last complete. Then
there is no report about the texts below each other, and running them at once ends as the last chunk
did: the lines are those of all the chunks, and a fault is the same but for its line. It is at a line
of one of the texts, its own, since it moves with that text when empty lines are put above the chunks;
in the whole it is below all lines of the texts before its own. -/
theorem joined_runs_as_chunks (clock : Number) (capacity : Option Nat) (steps : Nat)
    (texts : List String) (last : String)
    (hclean : ∀ text ∈ texts ++ [last], reportsOf text = [])
    (hcompleted : ∀ a ∈ (start clock capacity).answers (texts.map (Chunk.mk clock steps)),
      a.map Answer.outcome = some .completed) :
    let s := start clock capacity
    let earlier := s.answers (texts.map (Chunk.mk clock steps))
    reportsOf (joined (texts ++ [last])) = [] ∧
    ∃ ending : Option Ending, (∀ e ∈ ending, e.Within (texts ++ [last])) ∧
      s.answers ((texts ++ [last]).map (Chunk.mk clock steps)) =
        earlier ++ [ending.map (·.answer [] fun _ => 0)] ∧
      (∀ above, s.answers ((spaced above (texts ++ [last])).map (Chunk.mk clock steps)) =
        earlier ++ [ending.map (·.answer [] above)]) ∧
      s.answers [⟨clock, steps, joined (texts ++ [last])⟩] =
        [ending.map (·.answer (written earlier) (linesBefore (texts ++ [last])))] := by
  intro s earlier
  obtain ⟨ending, hwithin, hplain, hwhole⟩ := exists_ending hclean hcompleted fun _ => 0
  rw [spaced_zero] at hplain
  refine ⟨(exists_parts hclean).1, ending, hwithin, hplain, fun above => ?_, hwhole⟩
  obtain ⟨ending', hwithin', hspaced, hwhole'⟩ := exists_ending hclean hcompleted above
  have hanswer := (List.cons.inj (hwhole'.symm.trans hwhole)).1
  rwa [Ending.unique hwithin' hwithin hanswer] at hspaced

/-- A function with a fault in it, written to be called by a later chunk. -/
theorem joined_runs_as_chunks_closure :
    let s := start .nan none
    let texts := ["console.log(1);", "let a=2;\nfunction f()\n{return a.b;}"]
    let last := "\nf();"
    let earlier := s.answers (texts.map (Chunk.mk .nan 20))
    (∀ text ∈ texts ++ [last], reportsOf text = []) ∧
    (∀ a ∈ earlier, a.map Answer.outcome = some .completed) ∧
    reportsOf (joined (texts ++ [last])) = [] ∧
    ∃ ending : Option Ending, (∀ e ∈ ending, e.Within (texts ++ [last])) ∧
      s.answers ((texts ++ [last]).map (Chunk.mk .nan 20)) =
        earlier ++ [ending.map (·.answer [] fun _ => 0)] ∧
      (∀ above, s.answers ((spaced above (texts ++ [last])).map (Chunk.mk .nan 20)) =
        earlier ++ [ending.map (·.answer [] above)]) ∧
      s.answers [⟨.nan, 20, joined (texts ++ [last])⟩] =
        [ending.map (·.answer (written earlier) (linesBefore (texts ++ [last])))] := by
  intro s texts last earlier
  have hclean : ∀ text ∈ texts ++ [last], reportsOf text = [] := by decide +kernel
  have hcompleted : ∀ a ∈ earlier, a.map Answer.outcome = some .completed := by decide +kernel
  exact ⟨hclean, hcompleted, joined_runs_as_chunks .nan none 20 texts last hclean hcompleted⟩

/-- The fault is on the third line of the second text. -/
example :
    let s := start .nan none
    let texts := ["console.log(1);", "let a=2;\nfunction f()\n{return a.b;}", "\nf();"]
    let fault (line : Nat) : Diagnostic :=
      ⟨.runtime, line, " at 'b'", "Only instances have properties."⟩
    s.answers (texts.map (Chunk.mk .nan 20)) =
        [some ⟨.completed, ["1"], []⟩, some ⟨.completed, [], []⟩,
          some ⟨.runtimeError, [], [fault 3]⟩] ∧
      s.answers [⟨.nan, 20, joined texts⟩] = [some ⟨.runtimeError, ["1"], [fault 4]⟩] := by
  decide +kernel

end Session

end Scriptlet
