import Scriptlet.Proofs.Session.History
import Scriptlet.Proofs.Run.ByName

/-!
# Sessions by name

A session may also be run without distances: every variable, `this` and `super` is then looked up by
name along the frames from the current one. Where the local scopes of all chunks are in order, such
a session cannot be told from one that goes by distances.

Results:
* `Session.runByName`: a chunk that is run by name.
* `Session.distances_refine_names`: **the same outcomes, output and reports for every chunk.**
-/

namespace Scriptlet.Session

open Scope Run

/-- Runs a chunk as `run` does, with references followed in a given way. -/
def runWith (follow : Session → Scoping) (steps : Nat) (s : Session) (source : String) :
    Option (Outcome × Session) :=
  let c := compile source s.nextRef
  if c.reports.isEmpty then
    let s := s.keep c
    match interpret (follow s) steps c.program s.machine with
    | .ok _ machine => some (.completed, { s with machine })
    | .fault f machine =>
      some (.runtimeError, { s with machine, diagnostics := s.diagnostics.report f.diagnostic })
    | .exhausted => none
  else some (.compileError, s.reject c c.reports)

theorem run_eq_runWith (steps : Nat) (s : Session) (source : String) :
    s.run steps source = s.runWith Session.scoping steps source := rfl

/-- Runs a chunk with all names looked up along the frames. -/
def runByName (steps : Nat) (s : Session) (source : String) : Option (Outcome × Session) :=
  s.runWith (fun _ => .byName) steps source

/-- What comes of chunks that are run one after the other, each with the steps it is granted, up to
the first that needs more. -/
def transcript (run : Nat → Session → String → Option (Outcome × Session)) :
    Session → List (Nat × String) → List (Option (Outcome × Session))
  | _, [] => []
  | s, (steps, source) :: chunks =>
    match run steps s source with
    | none => [none]
    | some (outcome, s') => some (outcome, s') :: transcript run s' chunks

/-- **The local scopes of all chunks that are run are in order.** -/
def Ordered : Session → List (Nat × String) → Prop
  | _, [] => True
  | s, (steps, source) :: chunks =>
    let c := compile source s.nextRef
    (c.reports = [] → Stmt.OrderedAll c.program) ∧
      ∀ outcome s', s.run steps source = some (outcome, s') → s'.Ordered chunks

variable {s : Session} {ps : List (List Stmt)}

/-- A chunk in order is run by name as it is by distance. -/
theorem runByName_eq {source : String} (steps : Nat) (hs : Fits s ps)
    (hps : ∀ program ∈ ps, Stmt.OrderedAll program)
    (hchunk : (compile source s.nextRef).reports = [] →
      Stmt.OrderedAll (compile source s.nextRef).program) :
    s.runByName steps source = s.run steps source := by
  rw [run_eq_runWith]
  unfold runByName runWith
  dsimp only
  split_ifs with hempty
  · have hreports := List.isEmpty_iff.mp hempty
    have hfits := hs.keep hreports
    obtain ⟨Λ, hheap⟩ := hfits.heap
    have hsame := same_interpret (W := hfits.world) steps List.mem_cons_self hheap hfits.current
      (List.forall_mem_cons.mpr ⟨hchunk hreports, hps⟩)
    rw [hsame]
    rfl
  · rfl

/-- The same from any session on whose programs are in order. -/
theorem History.transcript_byName (hs : History s ps)
    (hps : ∀ program ∈ ps, Stmt.OrderedAll program)
    {chunks : List (Nat × String)} (hchunks : s.Ordered chunks) :
    transcript runByName s chunks = transcript run s chunks := by
  induction chunks generalizing s ps with
  | nil => rfl
  | cons chunk chunks ih =>
    obtain ⟨steps, source⟩ := chunk
    obtain ⟨hchunk, hrest⟩ := hchunks
    rw [transcript, transcript, runByName_eq steps hs.fits hps hchunk]
    cases hrun : s.run steps source with
    | none => rfl
    | some result =>
      obtain ⟨outcome, s'⟩ := result
      dsimp only
      congr 1
      by_cases hreports : (compile source s.nextRef).reports = []
      · exact ih (.ran hs hreports hrun) (List.forall_mem_cons.mpr ⟨hchunk hreports, hps⟩)
          (hrest outcome s' hrun)
      · exact ih (.rejected hs hreports hrun) hps (hrest outcome s' hrun)

/-- **Distances refine looking up names.** In a session whose local scopes declare no name after it
is referred to, chunks that are run by name end as they do by distance: with the same outcome and
the same session, so with the same output and reports. -/
theorem distances_refine_names (clock : Number) (capacity : Option Nat)
    (chunks : List (Nat × String))
    (h : (Session.start clock capacity).Ordered chunks) :
    transcript runByName (.start clock capacity) chunks =
      transcript run (.start clock capacity) chunks :=
  (History.start clock capacity).transcript_byName nofun h

/-- A closure over a local variable that changes. -/
theorem distances_refine_names_closure :
    let chunks := [(30, "{let x=1;function f(){return x;}x=2;console.log(f());}")]
    (Session.start .nan none).Ordered chunks ∧
      transcript runByName (.start .nan none) chunks =
        transcript run (.start .nan none) chunks := by
  intro chunks
  have hordered : (Session.start .nan none).Ordered chunks :=
    ⟨fun _ => by decide +kernel, fun _ _ _ => trivial⟩
  exact ⟨hordered, distances_refine_names .nan none chunks hordered⟩

/-- Where a name is referred to before its scope declares it, names and distances part. -/
example :
    let source := "let a=1;{function show(){console.log(a);}show();let a=2;show();}"
    let s := Session.start .nan none
    (s.run 30 source).map (·.2.machine.output.toList) = some ["1", "1"] ∧
      (s.runByName 30 source).map (·.2.machine.output.toList) = some ["1", "2"] := by
  decide +kernel

end Scriptlet.Session
