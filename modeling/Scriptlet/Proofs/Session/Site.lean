import Scriptlet.Proofs.Lexer.Joined
import Scriptlet.Proofs.Parser.Cursor
import Scriptlet.Proofs.Run.Site
import Scriptlet.Proofs.Session.Agreement
import Scriptlet.Proofs.Session.Reports

/-!
# What reports point at

A report says on which line and where on it something went wrong. What it points at is a token of the
text that is being run; or, at run time, of a text that was run earlier in the session, since functions
and classes outlive the chunk that declares them.

Tokens get into reports in three ways. The parser notices errors at tokens it has before it, the walk
over the scopes at names and keywords of the tree, and a run faults at tokens of the code it has come
to. That code is part of a program that the session has run, so its tokens are those of a text.

Results:
* `reports_at`: a compile-time report points at a token of its text, or is a lexical error of it.
* `Session.Fits.fault_site`: a fault points at a token of a text that was run.
* `Session.reports_point_at_tokens`: **every report of a session points at a token**, and its line is
  one of the lines of that text.
-/

namespace Scriptlet

open Scope Run

/-- The tokens of a text. -/
def tokensOf (source : String) : List Token := (lex source).filterMap LexItem.token?

theorem line_of_mem_tokensOf {source : String} {t : Token} (h : t ∈ tokensOf source) :
    1 ≤ t.line ∧ t.line ≤ lineCount source := line_mem_lines (token_mem_lex h)

/-- `Q` holds of the tokens of one of the texts that has no reports. -/
def Among (texts : List String) (Q : (Token → Prop) → Prop) : Prop :=
  ∃ text ∈ texts, reportsOf text = [] ∧ Q (· ∈ tokensOf text)

theorem Among.mono {texts texts' : List String} {Q Q' : (Token → Prop) → Prop}
    (h : Among texts Q) (htexts : texts ⊆ texts') (hQ : ∀ T, Q T → Q' T) : Among texts' Q' := by
  obtain ⟨text, htext, hreports, h⟩ := h
  exact ⟨text, htexts htext, hreports, hQ _ h⟩

/-! ## Compile-time reports -/

theorem compile_over (source : String) (ref : RefId) :
    Stmt.OverAll (· ∈ tokensOf source) (compile source ref).program :=
  (Parser.parse_over (tokensOf source) ref).1

/-- **A compile-time report points at a token of its text**, or is a lexical error of it. -/
theorem reports_at {source : String} {ref : RefId} {d : Diagnostic}
    (h : d ∈ (compile source ref).reports) :
    (∃ e, .error e ∈ lex source ∧ d = e.diagnostic) ∨
      ∃ t ∈ tokensOf source, ∃ message, d = .atToken t message := by
  unfold Compiled.reports at h
  split_ifs at h
  · obtain ⟨e, he, rfl⟩ := List.mem_map.mp h
    exact .inr ⟨e.token, resolve_sited (compile_over source ref) e (Array.mem_toList_iff.mp he), _, rfl⟩
  · rcases List.mem_append.mp h with h | h
    · obtain ⟨e, he, rfl⟩ := List.mem_map.mp h
      exact .inl ⟨e, error_mem_lex he, rfl⟩
    · obtain ⟨e, he, rfl⟩ := List.mem_map.mp h
      have hmem := (Parser.parse_over (tokensOf source) ref).2 e (Array.mem_toList_iff.mp he)
      exact .inr ⟨e.token, hmem, _, rfl⟩

/-! ## Faults -/

namespace Run

variable {W : World} {texts : List String}

/-- A call hands its closing parenthesis on. -/
theorem Starts.site {σ : Scoping} {a b : Moment} {callee : Value} {args : List Value} {site : Token}
    (h : Starts σ a b) (hb : b.task = .apply callee args site) :
    ∃ e es, a.task = .eval (.call e site es) := by
  cases h with
  | applied =>
    cases hb
    exact ⟨_, _, rfl⟩
  | _ => cases hb

theorem TaskFits.among {Λ : Layout} {m : Machine} {t : Task} {code : Code} (h : TaskFits W Λ m t)
    (hW : ∀ program, W.programs program → Among texts (Stmt.OverAll · program))
    (hcode : t.node? = some code) : Among texts (code.Over ·) := by
  obtain ⟨v, hat, rfl⟩ := h.at_node hcode
  obtain ⟨program, hprogram, hv⟩ := hat.known
  exact (hW program hprogram).mono (List.Subset.refl _) fun T => hv.over

/-- **At every moment of a run the code is that of one of the texts.** -/
theorem Reaches.among {a b : Moment} (h : Reaches W.scoping a b)
    (ha : ∃ Λ, TaskFits W Λ a.machine a.task) (hstart : Among texts (a.task.Over ·))
    (hW : ∀ program, W.programs program → Among texts (Stmt.OverAll · program)) :
    Among texts (b.task.Over ·) := by
  induction h with
  | refl => exact hstart
  | @tail d b hreach hstep ih =>
    obtain ⟨n, t, m⟩ := b
    obtain ⟨Λ, hfits⟩ := Reaches.fits (hreach.tail hstep) ha
    have some_text {Q : (Token → Prop) → Prop} (hQ : ∀ T, Q T) : Among texts Q :=
      hstart.mono (List.Subset.refl _) fun T _ => hQ T
    cases t with
    | exec st => exact hfits.among hW rfl
    | eval e => exact hfits.among hW rfl
    | write ref name e value =>
      exact (hfits.among hW rfl).mono (List.Subset.refl _) fun T h => h.1
    | apply callee args site =>
      -- The site is a token of the call that is being evaluated.
      obtain ⟨e, es, hcall⟩ := hstep.site rfl
      obtain ⟨Λ', hcaller⟩ := Reaches.fits hreach ha
      have hcode : d.task.node? = some (.expr (.call e site es)) := by
        rw [hcall]
        rfl
      exact (hcaller.among hW hcode).mono (List.Subset.refl _) fun T h => h.2.1
    | _ => exact some_text fun _ => trivial

end Run

namespace Session

variable {s t : Session} {ps : List (List Stmt)} {source : String} {texts : List String}

/-- **A fault points at a token of a text that was run**, when a program of the session is run in it. -/
theorem Fits.fault_site {steps : Nat} {program : List Stmt} {f : Fault} {m : Machine} (h : Fits s ps)
    (hprogram : program ∈ ps) (hps : ∀ program ∈ ps, Among texts (Stmt.OverAll · program))
    (hrun : interpret s.scoping steps program s.machine = .fault f m) :
    ∃ text ∈ texts, reportsOf text = [] ∧ f.site ∈ tokensOf text := by
  obtain ⟨Λ, hheap⟩ := h.heap
  obtain ⟨m', hfault⟩ : ∃ m', (Task.program program).run s.scoping steps s.machine = .fault f m' := by
    change ∃ m', execProgram _ _ _ _ = _
    unfold interpret at hrun
    split at hrun
    · next hexec =>
      cases hrun
      exact ⟨_, hexec⟩
    · exact ⟨m, hrun⟩
  have hstart := at_program (W := h.world) hprogram hheap h.current
  have hsite : Among texts (Traced · f) := by
    refine Task.run_faults (S := fun f => Among texts (Traced · f)) (fun b hb => ?_) hfault
    obtain ⟨text, htext, hnone, hover⟩ := Run.Reaches.among (W := h.world) hb ⟨Λ, {}, [], hstart⟩
      ((hps program hprogram).mono (List.Subset.refl _) fun _ _ => trivial) hps
    exact (Task.plan_faults hover).mono fun f hf => ⟨text, htext, hnone, hf⟩
  obtain ⟨text, htext, hnone, htoken | hthis⟩ := hsite
  · exact ⟨text, htext, hnone, htoken⟩
  · -- The receiver of a `super` is never missing.
    have hends := ends_interpret (W := h.world) steps hprogram hheap h.current
    change Ends _ _ _ (interpret s.scoping steps program s.machine) _ at hends
    rw [hrun] at hends
    exact absurd hthis (ownFault_of_benign (fun _ hp => hp) hends.2).this

/-! ## Sessions -/

/-- **The report points at a token.** At run time the token is one of a text that has been run, this
one or one of the earlier; when the text is compiled, it is one of this text, unless a piece of it is no
token at all. The line is one of the lines of that text. -/
structure PointsAt (earlier : List String) (source : String) (d : Diagnostic) : Prop where
  runtime : d.phase = .runtime → ∃ text ∈ source :: earlier, reportsOf text = [] ∧
    (∃ t ∈ tokensOf text, d.line = t.line ∧ d.place = " at '" ++ t.lexeme ++ "'") ∧
    1 ≤ d.line ∧ d.line ≤ lineCount text
  compile : d.phase = .compile → ((∃ e, .error e ∈ lex source ∧ d = e.diagnostic) ∨
      ∃ t ∈ tokensOf source, d.line = t.line ∧ d.place = t.place) ∧
    1 ≤ d.line ∧ d.line ≤ lineCount source

theorem pointsAt_of_mem_reports {earlier : List String} {ref : RefId} {d : Diagnostic}
    (h : d ∈ (Scriptlet.compile source ref).reports) : PointsAt earlier source d := by
  have hphase := phase_of_mem_reports h
  refine ⟨fun hruntime => absurd (hphase.symm.trans hruntime) nofun, fun _ => ?_⟩
  rcases reports_at h with ⟨e, he, rfl⟩ | ⟨t, ht, message, rfl⟩
  · exact ⟨.inl ⟨e, he, rfl⟩, line_mem_lines he⟩
  · exact ⟨.inr ⟨t, ht, rfl, rfl⟩, line_of_mem_tokensOf ht⟩

theorem pointsAt_fault {earlier : List String} {f : Fault}
    (h : ∃ text ∈ source :: earlier, reportsOf text = [] ∧ f.site ∈ tokensOf text) :
    PointsAt earlier source f.diagnostic := by
  obtain ⟨text, htext, hnone, hsite⟩ := h
  exact ⟨fun _ => ⟨text, htext, hnone, ⟨f.site, hsite, rfl, rfl⟩, line_of_mem_tokensOf hsite⟩, nofun⟩

/-- The programs that the session has run are those of texts among these. -/
def Sourced (s : Session) (texts : List String) : Prop :=
  ∃ ps, Fits s ps ∧ ∀ program ∈ ps, Among texts (Stmt.OverAll · program)

theorem sourced_start (clock : Number) (capacity : Option Nat) : Sourced (start clock capacity) [] :=
  ⟨[], (History.start clock capacity).fits, nofun⟩

theorem Sourced.atTime (h : Sourced s texts) (clock : Number) : Sourced (s.atTime clock) texts := by
  obtain ⟨ps, hfits, hps⟩ := h
  exact ⟨ps, hfits.atTime clock, hps⟩

/-- **A chunk is run**: the reports that it adds point at tokens, and what the session has run is among
the texts and this one. -/
theorem Sourced.run {steps : Nat} {outcome : Outcome} (h : Sourced s texts)
    (hrun : s.run steps source = some (outcome, t)) :
    Sourced t (source :: texts) ∧ ∃ added,
      t.diagnostics.reports.toList = s.diagnostics.reports.toList ++ added ∧
      ∀ d ∈ added, PointsAt texts source d := by
  obtain ⟨ps, hfits, hps⟩ := h
  have hearlier : ∀ program ∈ ps, Among (source :: texts) (Stmt.OverAll · program) := fun p hp =>
    (hps p hp).mono (List.subset_cons_self source texts) fun _ => id
  by_cases hreports : (Scriptlet.compile source s.nextRef).reports = []
  · have hkept := hfits.keep hreports
    have hall : ∀ program ∈ (Scriptlet.compile source s.nextRef).program :: ps,
        Among (source :: texts) (Stmt.OverAll · program) := by
      refine List.forall_mem_cons.mpr ⟨?_, hearlier⟩
      exact ⟨source, List.mem_cons_self, (reports_eq source _).symm.trans hreports,
        compile_over source _⟩
    rw [run_eq_execute steps hreports] at hrun
    refine ⟨⟨_, hkept.execute List.mem_cons_self hrun, hall⟩, ?_⟩
    unfold execute at hrun
    split at hrun
    · cases hrun
      exact ⟨[], (List.append_nil _).symm, nofun⟩
    · next f m hfault =>
      cases hrun
      refine ⟨[f.diagnostic], Array.toList_push, List.forall_mem_singleton.mpr ?_⟩
      exact pointsAt_fault (hkept.fault_site List.mem_cons_self hall hfault)
    · cases hrun
  · rw [run_eq_rejected steps hreports] at hrun
    cases hrun
    exact ⟨⟨ps, hfits.reject _ _, hearlier⟩, _, reports_reject _ _ _, fun _ => pointsAt_of_mem_reports⟩

theorem Sourced.answer {c : Chunk} {a : Answer} (h : Sourced s texts)
    (ha : s.answer c = some (a, t)) :
    Sourced t (c.source :: texts) ∧
      t.diagnostics.reports.toList = s.diagnostics.reports.toList ++ a.reports ∧
      ∀ d ∈ a.reports, PointsAt texts c.source d := by
  obtain ⟨⟨outcome, u⟩, hrun, heq⟩ := Option.map_eq_some_iff.mp ha
  obtain ⟨hsourced, added, happended, hadded⟩ := (h.atTime c.clock).run hrun
  cases heq
  have hreports : t.reportsSince s.diagnostics.count = added := reportsSince_eq happended
  exact ⟨hsourced, by rw [hreports]; exact happended, by rw [hreports]; exact hadded⟩

theorem Sourced.mono {texts' : List String} (h : Sourced s texts) (htexts : texts ⊆ texts') :
    Sourced s texts' := by
  obtain ⟨ps, hfits, hps⟩ := h
  exact ⟨ps, hfits, fun program hprogram => (hps program hprogram).mono htexts fun _ => id⟩

/-- **Chunks one after the other**, by induction on them from the last: each has added its reports to
those of the chunks before. -/
theorem sourced_after {clock : Number} {capacity : Option Nat} {cs : List Chunk}
    (h : (start clock capacity).after cs = some s) :
    Sourced s (cs.map (·.source)) ∧
      ∀ d ∈ s.diagnostics.reports.toList, ∃ before c later, cs = before ++ c :: later ∧
        PointsAt (before.map (·.source)) c.source d := by
  induction cs using List.reverseRecOn generalizing s with
  | nil =>
    cases h
    exact ⟨sourced_start clock capacity, nofun⟩
  | append_singleton cs c ih =>
    rw [after_append] at h
    obtain ⟨u, hu, h⟩ := Option.bind_eq_some_iff.mp h
    obtain ⟨⟨a, v⟩, hanswer, hv⟩ := Option.bind_eq_some_iff.mp h
    cases hv
    obtain ⟨hsourced, hreports⟩ := ih hu
    obtain ⟨hsourced', happended, hadded⟩ := hsourced.answer hanswer
    refine ⟨hsourced'.mono ?_, fun d hd => ?_⟩
    · rw [List.map_append]
      exact List.cons_subset.mpr ⟨List.mem_append_right _ List.mem_cons_self,
        List.subset_append_left _ _⟩
    · rw [happended] at hd
      rcases List.mem_append.mp hd with hd | hd
      · obtain ⟨before, b, later, rfl, hpoints⟩ := hreports d hd
        exact ⟨before, b, later ++ [c], by simp, hpoints⟩
      · exact ⟨cs, c, [], rfl, hadded d hd⟩

/-- **Every report points at a token.**

After every sequence of chunks, each report of the session was added by one of them, the `c` between
those `before` and those `later`. Whatever chunk comes next, the reports that it adds point at tokens in
the same way: at run time at a token of a chunk that has been run so far, and else at a token of the
chunk itself. -/
theorem reports_point_at_tokens {clock : Number} {capacity : Option Nat} {cs : List Chunk}
    (h : (start clock capacity).after cs = some s) :
    (∀ d ∈ s.diagnostics.reports.toList, ∃ before c later, cs = before ++ c :: later ∧
      PointsAt (before.map (·.source)) c.source d) ∧
    ∀ c a t, s.answer c = some (a, t) →
      ∀ d ∈ a.reports, PointsAt (cs.map (·.source)) c.source d := by
  obtain ⟨hsourced, hreports⟩ := sourced_after h
  exact ⟨hreports, fun c a t ha => (hsourced.answer ha).2.2⟩

/-- A function that is declared in one chunk, with a call in it on the second line that faults when the
function is called in a chunk of a single line. -/
theorem reports_point_at_tokens_closure :
    let cs : List Chunk := [⟨.nan, 20, "function f()\n{null();}"⟩]
    let c : Chunk := ⟨.nan, 20, "f();"⟩
    ∃ s a t d, (start .nan none).after cs = some s ∧ s.answer c = some (a, t) ∧
      a.reports = [d] ∧ d.phase = .runtime ∧ d.line = 2 ∧
      PointsAt (cs.map (·.source)) c.source d := by
  intro cs c
  have hrun : (((start .nan none).after cs).bind (·.answer c)).map (·.1.reports) =
      some [⟨.runtime, 2, " at ')'", "Can only call functions and classes."⟩] := by
    decide +kernel
  obtain ⟨⟨a, t⟩, hbind, hreports⟩ := Option.map_eq_some_iff.mp hrun
  obtain ⟨s, hs, hanswer⟩ := Option.bind_eq_some_iff.mp hbind
  have hpoints := (reports_point_at_tokens hs).2 c a t hanswer
  dsimp only at hreports
  rw [hreports] at hpoints
  exact ⟨s, a, t, _, hs, hanswer, hreports, rfl, rfl, hpoints _ List.mem_cons_self⟩

end Session

end Scriptlet
