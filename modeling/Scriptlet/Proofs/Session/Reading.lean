import Scriptlet.Proofs.Session.ByName
import Scriptlet.Proofs.Session.Like
import Scriptlet.Proofs.Run.Folded

/-!
# Sessions that read `for`

The parser writes `for` as a loop over a block. A session may also take it as it was meant: resolve its
turns in the scope of the loop and run them in its frame (`Session.runReading`). Closures are made in
frames that the other session does not have, and references have other distances. Still, the sessions
cannot be told apart.

Results:
* `Session.runReading`: a chunk that is resolved and run with its turns read.
* `Session.MeansFor`: what such a chunk makes of a `for`.
* `Session.blocks_refine_turns`: **the same outcomes, output and reports for every chunk.**
-/

namespace Scriptlet

open Scope Run

/-- A chunk resolved with its turns read: a turn has no scope. -/
def Reading.resolve (R : Reading) (c : Compiled) : Compiled :=
  let resolution := readStmts R c.program {}
  { c with
    bindings := resolution.bindings
    scopeReports := resolution.errors.toList.map ScopeError.diagnostic }

namespace Session

/-- Runs a program in the session with turns read, and reports the fault it ends with. -/
def executeReading (R : Reading) (steps : Nat) (s : Session) (program : List Stmt) :
    Option (Outcome × Session) :=
  match readInterpret R s.scoping steps program s.machine with
  | .ok _ machine => some (.completed, { s with machine })
  | .fault f machine =>
    some (.runtimeError, { s with machine, diagnostics := s.diagnostics.report f.diagnostic })
  | .exhausted => none

/-- Runs a chunk with its turns read. -/
def runReading (R : Reading) (steps : Nat) (s : Session) (source : String) :
    Option (Outcome × Session) :=
  let c := R.resolve (compile source s.nextRef)
  if c.reports.isEmpty then (s.keep c).executeReading R steps c.program
  else some (.compileError, s.reject c c.reports)

/-- What can be seen of a chunk that was run: its outcome, and what has been written and reported. -/
def seen (result : Outcome × Session) : Outcome × Array String × Diagnostics :=
  (result.1, result.2.machine.output, result.2.diagnostics)

/-- What is known of the references that two sessions have given. -/
def guide (s s' : Session) : Guide := .ofDistances (· < s.nextRef) s.distances s'.distances

/-- **Sessions of which the second reads turns.** -/
structure Folds (R : Reading) (Φ : Folding) (s s' : Session) : Prop where
  machine : s.machine.Folds R (s.guide s') Φ [] s'.machine
  current : s'.machine.current = Store.global
  nextRef : s.nextRef = s'.nextRef
  distances (ref : RefId) (h : s'.nextRef ≤ ref) : s'.distances[ref]? = none
  diagnostics : s.diagnostics = s'.diagnostics

variable {R : Reading} {Φ : Folding} {s s' t t' : Session} {c : Compiled}

/-- What is known of references is known later. -/
theorem guide_within (h : s.Extends t) (hnext : s.nextRef = s'.nextRef) (h' : s'.Extends t') :
    (s.guide s').Within (t.guide t') := by
  have hkept {r : RefId} (hr : r < s.nextRef) : r < t.nextRef ∧
      t.distances[r]? = s.distances[r]? ∧ t'.distances[r]? = s'.distances[r]? :=
    ⟨Nat.lt_of_lt_of_le hr h.nextRef, h.distances r hr, h'.distances r (hnext ▸ hr)⟩
  constructor
  · rintro r fl ⟨hr, hd⟩
    obtain ⟨hlt, heq, heq'⟩ := hkept hr
    refine ⟨hlt, ?_⟩
    rwa [heq, heq']
  · rintro r fl ⟨hr, k, hd, hd', hthis, hsuper⟩
    obtain ⟨hlt, heq, heq'⟩ := hkept hr
    exact ⟨hlt, k, heq.trans hd, heq'.trans hd', hthis, hsuper⟩

theorem folds_start (R : Reading) (clock : Number) (capacity : Option Nat) :
    (Session.start clock capacity).Folds R [(Store.global, [])] (.start clock capacity) :=
  ⟨Machine.folds_initial R _ clock capacity, rfl, rfl, fun _ _ => Std.TreeMap.getElem?_emptyc, rfl⟩

/-- **A chunk without reports has none when its turns are read.** -/
theorem reports_resolve (R : Reading) {D : Distances} (h : Resolved D c.program)
    (hreports : c.reports = []) : (R.resolve c).reports = [] := by
  have hscope : (R.resolve c).scopeReports = [] := by
    simp [Reading.resolve, (errors_of_resolved R h).1]
  have hsyntax : (R.resolve c).syntaxReports = c.syntaxReports := rfl
  unfold Compiled.reports at hreports ⊢
  rw [hscope, hsyntax]
  split_ifs at hreports ⊢
  · rfl
  · exact hreports

/-- A chunk is kept in both sessions, and its program is led. -/
theorem Folds.keep (h : s.Folds R Φ s') (hextends : s.Extends (s.keep c))
    (hresolved : Resolved (s.keep c).distances c.program)
    (hfresh : Fresh s.nextRef c.nextRef ((R.resolve c).bindings.toList.map (·.ref))) :
    (s.keep c).Folds R Φ (s'.keep (R.resolve c)) ∧
      Stmt.LedAll R ((s.keep c).guide (s'.keep (R.resolve c))) c.program [] := by
  have hextends' : s'.Extends (s'.keep (R.resolve c)) := extends_note (h.nextRef ▸ hfresh) rfl
  refine ⟨⟨?_, h.current, rfl, fun ref href => ?_, h.diagnostics⟩, ?_⟩
  · exact h.machine.mono (guide_within hextends h.nextRef hextends')
  · have hold : s'.distances[ref]? = none :=
      h.distances ref (Nat.le_trans hextends'.nextRef href)
    refine (s'.distances.getElem?_addBindings_of_not_mem fun hmem => ?_).trans hold
    exact Nat.lt_irrefl _ (Nat.lt_of_lt_of_le (hfresh.within ref hmem).2 href)
  · refine led_of_resolved R hresolved fun b hb => ?_
    have hmem : b ∈ (R.resolve c).bindings.toList := Array.mem_toList_iff.mpr hb
    refine ⟨(hfresh.within b.ref (List.mem_map_of_mem hmem)).2, ?_⟩
    refine s'.distances.getElem?_addBindings_of_mem hfresh.nodup hmem fun b' hb' => ?_
    exact h.distances b'.ref (h.nextRef ▸ (hfresh.within b'.ref (List.mem_map_of_mem hb')).1)

/-- Two sessions can be seen to end a chunk the same way. -/
def EndAlike (R : Reading) : Option (Outcome × Session) → Option (Outcome × Session) → Prop :=
  Option.Rel fun a b => seen a = seen b ∧ ∃ Φ, a.2.Folds R Φ b.2

/-- A program that is led is run alike. -/
theorem Folds.execute (h : s.Folds R Φ s') {program : List Stmt}
    (hled : Stmt.LedAll R (s.guide s') program []) (steps : Nat) :
    EndAlike R (s.execute steps program) (s'.executeReading R steps program) := by
  have hresult := answers_readInterpret ⟨fun _ _ hr => hr, fun _ _ hr => hr⟩ steps hled h.machine
    h.current
  unfold Session.execute executeReading scoping
  generalize interpret (.byDistance s.distances) steps program s.machine = r at hresult ⊢
  generalize readInterpret R (.byDistance s'.distances) steps program s'.machine = r' at hresult ⊢
  cases hresult with
  | ok _ _ hm hcurrent =>
    refine .some ⟨?_, _, hm, hcurrent, h.nextRef, h.distances, h.diagnostics⟩
    simp only [seen, hm.output, h.diagnostics]
  | fault _ hm hcurrent =>
    refine .some ⟨?_, _, hm, hcurrent, h.nextRef, h.distances, ?_⟩
    · simp only [seen, hm.output, h.diagnostics]
    · simp only [h.diagnostics]
  | exhausted => exact .none

/-- **A chunk without reports is run alike when its turns are read.** -/
theorem Folds.run (h : s.Folds R Φ s') {ps : List (List Stmt)} (hs : Fits s ps) {source : String}
    (hreports : (compile source s.nextRef).reports = []) (steps : Nat) :
    EndAlike R (s.run steps source) (s'.runReading R steps source) := by
  have hresolved := hs.keep_resolved hreports _ List.mem_cons_self
  have hfresh := fresh_bindings (compile_fresh source s.nextRef)
  have hextends := extends_keep s source
  have hread := reports_resolve R hresolved hreports
  rw [run_eq_execute _ hreports]
  unfold runReading
  rw [← h.nextRef]
  generalize compile source s.nextRef = c at *
  have hfresh' : Fresh s.nextRef c.nextRef ((R.resolve c).bindings.toList.map (·.ref)) := by
    have hrefs := (errors_of_resolved R hresolved).2
    exact hrefs ▸ hfresh
  obtain ⟨hkeep, hled⟩ := h.keep hextends hresolved hfresh'
  dsimp only
  rw [hread, if_pos List.isEmpty_nil]
  exact hkeep.execute hled steps

/-- The same from sessions on that cannot be told apart. -/
theorem Folds.transcript (h : s.Folds R Φ s') {ps : List (List Stmt)} (hs : History s ps)
    {chunks : List (Nat × String)}
    (hchunks : ∀ chunk ∈ chunks, reportsOf chunk.2 = []) :
    (transcript Session.run s chunks).map (Option.map seen) =
      (transcript (runReading R) s' chunks).map (Option.map seen) := by
  induction chunks generalizing s s' Φ ps with
  | nil => rfl
  | cons chunk chunks ih =>
    obtain ⟨steps, source⟩ := chunk
    obtain ⟨hchunk, hrest⟩ := List.forall_mem_cons.mp hchunks
    have hreports := (reports_eq source s.nextRef).trans hchunk
    have hrun := h.run hs.fits hreports steps
    rw [Session.transcript, Session.transcript]
    generalize hr : s.run steps source = r at hrun ⊢
    generalize s'.runReading R steps source = r' at hrun ⊢
    cases hrun with
    | none => rfl
    | @some a b hab =>
      obtain ⟨hseen, Ψ, hfolds⟩ := hab
      simp only [List.map_cons, Option.map_some, hseen, ih hfolds (.ran hs hreports hr) hrest]

/-- **Chunks that are run with their turns read are run as `for` is meant.** A condition that is missing
holds. -/
structure MeansFor (R : Reading) : Prop where
  /-- The initializer has a scope of its own, and the loop is resolved in it. -/
  scopeOfInit (init : Stmt) (cond step : Option Expr) (body : Stmt) (st : State) :
    readStmt R (Parser.forLoop (some init) cond step body) st =
      (readStmt R (Parser.forLoop none cond step body) (readStmt R init (st.enter []))).leave
  /-- Condition, body and step are resolved in one scope. -/
  scopeOfTurn (cond : Option Expr) (step : Expr) (body : Stmt) (st : State) :
    R.direct [body, .expr step] = true →
      readStmt R (Parser.forLoop none cond (some step) body) st =
        walkExpr step (readStmt R body (walkExpr (cond.getD (.literal (.bool true))) st))
  scopeOfBody (cond : Option Expr) (body : Stmt) (st : State) :
    readStmt R (Parser.forLoop none cond none body) st =
      readStmt R body (walkExpr (cond.getD (.literal (.bool true))) st)
  /-- The initializer is run once, in a fresh frame, and the loop in that frame. -/
  init (σ : Scoping) (n : Nat) (init : Stmt) (cond step : Option Expr) (body : Stmt) :
    Task.read R σ (n + 4) (.exec (Parser.forLoop (some init) cond step body)) =
      forInit (Task.read R σ (n + 2) (.exec init))
        (Task.read R σ (n + 1) (.exec (Parser.forLoop none cond step body)))
  /-- As long as the condition holds, the body is run and then, unless it returned, the step is
  evaluated. -/
  turn (σ : Scoping) (n : Nat) (cond : Option Expr) (step : Expr) (body : Stmt) :
    R.direct [body, .expr step] = true →
      Task.read R σ (n + 6) (.exec (Parser.forLoop none cond (some step) body)) =
        forTurn (Task.read R σ (n + 4) (.eval (cond.getD (.literal (.bool true)))))
          (Task.read R σ (n + 2) (.exec body)) (Task.read R σ n (.eval step))
          (Task.read R σ (n + 5) (.exec (Parser.forLoop none cond (some step) body)))
  stepless (σ : Scoping) (n : Nat) (cond : Option Expr) (body : Stmt) :
    Task.read R σ (n + 2) (.exec (Parser.forLoop none cond none body)) =
      forTurn (Task.read R σ n (.eval (cond.getD (.literal (.bool true)))))
        (Task.read R σ n (.exec body)) (pure ())
        (Task.read R σ (n + 1) (.exec (Parser.forLoop none cond none body)))

theorem meansFor (R : Reading) : MeansFor R where
  scopeOfInit := readStmt_forInit R
  scopeOfTurn cond _ _ st h := readStmt_forTurn cond h st
  scopeOfBody := readStmt_forTurn_stepless R
  init _ _ := read_forInit
  turn _ _ cond _ _ h := read_forTurn cond h
  stepless _ _ := read_forTurn_stepless

/-- **Writing `for` as a loop over a block keeps its meaning.** Chunks without reports, resolved and run
as they are parsed, end as they do when turns are read: with the same outcome, output and reports. It
does not matter which blocks are read as turns, those of all `for` loops (`Reading.everyTurn`) or of
some. When a turn is read, the initializer, the condition, the body and the step do what they are meant
to do. -/
theorem blocks_refine_turns (R : Reading) (clock : Number) (capacity : Option Nat)
    (chunks : List (Nat × String)) (h : ∀ chunk ∈ chunks, reportsOf chunk.2 = []) :
    (transcript run (.start clock capacity) chunks).map (Option.map seen) =
      (transcript (runReading R) (.start clock capacity) chunks).map (Option.map seen) ∧
    MeansFor R ∧
    ∀ dangling ts body, Grammar.Derives (.statement dangling) ts body → Grammar.Spelled ts →
      ∀ step, Reading.everyTurn.direct [body, .expr step] = true :=
  ⟨(folds_start R clock capacity).transcript (.start clock capacity) h, meansFor R,
    fun _ _ _ hbody hts step => Reading.everyTurn_direct hbody hts step⟩

/-- The second of three statements is a `for` with all its clauses and a block as its body. -/
def loopsInTurns : List Stmt → Bool
  | [_, .block [_, .loop _ (.block [.block _, .expr _])], _] => true
  | _ => false

/-- A closure over the variable of a loop, which is called after the loop. -/
theorem blocks_refine_turns_closure :
    let source := "let g;for(let i=0;i<2;i=i+1){function f(){return i;}g=f;}console.log(g());"
    let chunks := [(40, source)]
    let R := Reading.everyTurn
    (∀ chunk ∈ chunks, reportsOf chunk.2 = []) ∧
      (transcript run (.start .nan none) chunks).map (Option.map seen) =
        [some (.completed, #["2"], {})] ∧
      (transcript (runReading R) (.start .nan none) chunks).map (Option.map seen) =
        [some (.completed, #["2"], {})] ∧
      ∃ first init cond step body last, (compile source 0).program =
          [first, Parser.forLoop (some init) (some cond) (some step) body, last] ∧
        (∀ st, readStmt R (Parser.forLoop none (some cond) (some step) body) st =
          walkExpr step (readStmt R body (walkExpr cond st))) ∧
        ∀ σ n, Task.read R σ (n + 6)
            (.exec (Parser.forLoop none (some cond) (some step) body)) =
          forTurn (Task.read R σ (n + 4) (.eval cond)) (Task.read R σ (n + 2) (.exec body))
            (Task.read R σ n (.eval step))
            (Task.read R σ (n + 5) (.exec (Parser.forLoop none (some cond) (some step) body))) := by
  intro source chunks R
  have hreports : ∀ chunk ∈ chunks, reportsOf chunk.2 = [] := by decide +kernel
  obtain ⟨hsame, hmeans, -⟩ := blocks_refine_turns R .nan none chunks hreports
  have hseen : (transcript run (.start .nan none) chunks).map (Option.map seen) =
      [some (.completed, #["2"], {})] := by
    decide +kernel
  refine ⟨hreports, hseen, hsame.symm.trans hseen, ?_⟩
  have hshape : loopsInTurns (compile source 0).program = true := by decide +kernel
  unfold loopsInTurns at hshape
  split at hshape
  case h_2 => cases hshape
  rename_i first init cond block step last hprogram
  have hdirect : R.direct [.block block, .expr step] = true := rfl
  exact ⟨first, init, cond, step, .block block, last, hprogram,
    fun st => hmeans.scopeOfTurn (some cond) step _ st hdirect,
    fun σ n => hmeans.turn σ n (some cond) step _ hdirect⟩

/-- The turns of a loop are read: there are no frames for them. -/
example :
    let source := "let g;for(let i=0;i<2;i=i+1){function f(){return i;}g=f;}console.log(g());"
    let shown (r : Outcome × Session) := (r.2.machine.output.toList, r.2.machine.store.frames.size)
    let s := Session.start .nan none
    (s.run 40 source).map shown = some (["2"], 7) ∧
      (s.runReading .everyTurn 40 source).map shown = some (["2"], 5) := by
  decide +kernel

end Session

end Scriptlet
