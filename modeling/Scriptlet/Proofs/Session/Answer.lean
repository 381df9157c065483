import Scriptlet.Proofs.Session.History

/-!
# What can be seen of a session

A session is given chunks, each at its time and with the steps it is granted, and answers each of them:
with the outcome, the lines that were written and the reports that were added. The clock is set before
each chunk; that is all a chunk can see of the time.

* `Session.answers`: the answers to chunks, one after the other.
* `Session.after`: the session after chunks.
-/

namespace Scriptlet

/-- A chunk: its text, the time at which it is run and the steps it is granted. -/
structure Chunk where
  clock : Number
  steps : Nat
  source : String

/-- What can be seen of a chunk that has been run. -/
structure Answer where
  outcome : Outcome
  lines : List String
  reports : List Diagnostic
deriving DecidableEq

namespace Session

/-- The session at another time. -/
def atTime (s : Session) (clock : Number) : Session :=
  { s with machine := { s.machine with clock } }

/-- Runs a chunk, and says what can be seen of it. -/
def answer (s : Session) (c : Chunk) : Option (Answer × Session) :=
  ((s.atTime c.clock).run c.steps c.source).map fun (outcome, t) =>
    (⟨outcome, t.linesSince s.machine.output.size, t.reportsSince s.diagnostics.count⟩, t)

/-- The answers to chunks that are run one after the other. A chunk that is granted too few steps has
none, and neither have those after it. -/
def answers : Session → List Chunk → List (Option Answer)
  | _, [] => []
  | s, c :: cs =>
    match s.answer c with
    | some (a, t) => some a :: t.answers cs
    | none => none :: cs.map fun _ => none

/-- The session after chunks have been run. -/
def after : Session → List Chunk → Option Session
  | s, [] => some s
  | s, c :: cs => (s.answer c).bind fun (_, t) => t.after cs

theorem linesSince_eq {s t : Session} {lines : List String}
    (h : t.machine.output.toList = s.machine.output.toList ++ lines) :
    t.linesSince s.machine.output.size = lines := by
  unfold linesSince
  rw [h, ← Array.length_toList, List.drop_left]

theorem reportsSince_eq {s t : Session} {added : List Diagnostic}
    (h : t.diagnostics.reports.toList = s.diagnostics.reports.toList ++ added) :
    t.reportsSince s.diagnostics.count = added := by
  unfold reportsSince Diagnostics.count
  rw [h, ← Array.length_toList, List.drop_left]

/-- The answer to a chunk, read off what it has added. -/
theorem answer_eq {s t : Session} {c : Chunk} {outcome : Outcome} {lines : List String}
    {added : List Diagnostic} (hrun : (s.atTime c.clock).run c.steps c.source = some (outcome, t))
    (hlines : t.machine.output.toList = s.machine.output.toList ++ lines)
    (hadded : t.diagnostics.reports.toList = s.diagnostics.reports.toList ++ added) :
    s.answer c = some (⟨outcome, lines, added⟩, t) := by
  simp only [answer, hrun, Option.map_some, linesSince_eq hlines, reportsSince_eq hadded]

theorem Fits.atTime {s : Session} {ps : List (List Stmt)} (h : Fits s ps) (clock : Number) :
    Fits (s.atTime clock) ps := { h with }

theorem after_append (s : Session) (cs ds : List Chunk) :
    s.after (cs ++ ds) = (s.after cs).bind (·.after ds) := by
  induction cs generalizing s with
  | nil => rfl
  | cons c cs ih =>
    simp only [List.cons_append, after, Option.bind_assoc, ih]

theorem answers_append (s : Session) (cs ds : List Chunk) :
    s.answers (cs ++ ds) = s.answers cs ++
      match s.after cs with
      | some t => t.answers ds
      | none => ds.map fun _ => none := by
  induction cs generalizing s with
  | nil => rfl
  | cons c cs ih =>
    simp only [List.cons_append, answers, after]
    cases s.answer c with
    | none => simp
    | some r => simp only [ih, List.cons_append, Option.bind_some]

end Session

end Scriptlet
