import Scriptlet.Proofs.Run.ByName
import Scriptlet.Proofs.Run.Plan
import Scriptlet.Proofs.Session.Agreement
import Scriptlet.Proofs.Session.Answer

/-!
# Identities over a session

All chunks of a session note the distances of their references in one table, those that are rejected
for an error in a scope as well, and nothing is ever taken out of it. The key of an entry is the
identity of its reference. Since identities are handed out once, the table says of a chunk's references
what a table with the entries of that chunk alone would say (`Separates`).

A computation looks at the table itself only under the references of its node, and leaves the rest to
those it starts. So whatever chunk it stands in, perhaps an earlier one whose function is called, it
does what it would do with the entries of that chunk alone.

* `compileAll`: texts, compiled one after the other.
* `Compiled.table`: the distances that one chunk notes.

Results:
* `Run.Task.plan_congr`: what a computation looks at in the table.
* `Session.compiles_after`: **after every sequence of chunks the table keeps them apart.**
* `Session.HasCompiled.owned`: each computation of a run goes by the entries of one chunk.
* `identities_apart`: **identities never collide**, and no chunk reads what is noted for another.
-/

namespace Scriptlet

open Scope Run Exec

/-! ## What is noted for a chunk -/

namespace Compiled

/-- The table with the distances of one chunk alone. -/
def table (c : Compiled) : Distances := Distances.addBindings ∅ c.noted

theorem noted_of_reports {source : String} {ref : RefId} (h : (compile source ref).reports = []) :
    (compile source ref).noted = (compile source ref).bindings.toList := by
  rw [noted, syntaxReports_eq_nil h, List.isEmpty_nil, if_pos rfl]

/-- What is noted is noted under references of the chunk. -/
theorem ref_mem_refsAll (source : String) (ref : RefId) {b : Binding}
    (hb : b ∈ (compile source ref).noted) : b.ref ∈ Stmt.refsAll (compile source ref).program := by
  unfold noted at hb
  split_ifs at hb
  · exact Scope.ref_mem_refsAll (Array.mem_toList_iff.mp hb)
  · cases hb

end Compiled

/-- Texts, compiled one after the other: each with identities from where the one before has stopped. -/
def compileAll : List String → RefId → List Compiled
  | [], _ => []
  | source :: sources, nextRef =>
    compile source nextRef :: compileAll sources (compile source nextRef).nextRef

/-- What two tables say of a reference stays the same when both get the same entries. -/
theorem Distances.getElem?_addBindings_congr {ds ds' : Distances} {ref : RefId}
    (h : ds[ref]? = ds'[ref]?) (bs : List Binding) :
    (ds.addBindings bs)[ref]? = (ds'.addBindings bs)[ref]? := by
  induction bs generalizing ds ds' with
  | nil => exact h
  | cons b bs ih =>
    rw [addBindings_cons, addBindings_cons]
    refine ih ?_
    cases b.distance with
    | none => exact h
    | some d =>
      dsimp only
      rw [Std.TreeMap.getElem?_insert, Std.TreeMap.getElem?_insert, h]

/-- **The table keeps chunks apart.** Their references have identities of their own, all below the next
one; what is noted for a chunk is noted under its references, and of those the table says what it would
say with the entries of that chunk alone. -/
structure Separates (table : Distances) (nextRef : RefId) (chunks : List Compiled) : Prop where
  fresh : Fresh 0 nextRef (chunks.flatMap fun c => Stmt.refsAll c.program)
  noted (c : Compiled) (hc : c ∈ chunks) (b : Binding) (hb : b ∈ c.noted) :
    b.ref ∈ Stmt.refsAll c.program
  own (c : Compiled) (hc : c ∈ chunks) (r : RefId) (hr : r ∈ Stmt.refsAll c.program) :
    table[r]? = c.table[r]?
  unused (r : RefId) (hr : nextRef ≤ r) : table[r]? = none

namespace Separates

theorem start : Separates ∅ 0 [] :=
  ⟨.nil (Nat.le_refl _), nofun, nofun, fun _ _ => Std.TreeMap.getElem?_emptyc⟩

/-- **The table keeps one more chunk apart**, whose entries have been added. -/
theorem note {table : Distances} {nextRef : RefId} {chunks : List Compiled}
    (h : Separates table nextRef chunks) (source : String) :
    let c := compile source nextRef
    Separates (table.addBindings c.noted) c.nextRef (chunks ++ [c]) := by
  intro c
  have hnoted : Fresh nextRef c.nextRef (c.noted.map (·.ref)) := compile_noted source nextRef
  have hrefs : Fresh nextRef c.nextRef (Stmt.refsAll c.program) := compile_fresh source nextRef
  refine ⟨?_, fun c' hc' b hb => ?_, fun c' hc' r hr => ?_, fun r hr => ?_⟩
  · rw [List.flatMap_append, List.flatMap_singleton]
    exact h.fresh.append hrefs
  · rcases List.mem_append.mp hc' with hc' | hc'
    · exact h.noted c' hc' b hb
    · obtain rfl := List.mem_singleton.mp hc'
      exact Compiled.ref_mem_refsAll source nextRef hb
  · rcases List.mem_append.mp hc' with hc' | hc'
    · -- An earlier chunk: its references are below all that are noted now.
      have hlt : r < nextRef := (h.fresh.within r (List.mem_flatMap.mpr ⟨c', hc', hr⟩)).2
      have hnot : r ∉ c.noted.map (·.ref) := fun hm =>
        Nat.lt_irrefl _ (Nat.lt_of_lt_of_le hlt (hnoted.within r hm).1)
      rw [table.getElem?_addBindings_of_not_mem hnot, h.own c' hc' r hr]
    · obtain rfl := List.mem_singleton.mp hc'
      refine Distances.getElem?_addBindings_congr ?_ c.noted
      rw [h.unused r (hrefs.within r hr).1]
      exact Std.TreeMap.getElem?_emptyc.symm
  · have hnot : r ∉ c.noted.map (·.ref) := fun hm =>
      Nat.lt_irrefl _ (Nat.lt_of_lt_of_le (hnoted.within r hm).2 hr)
    rw [table.getElem?_addBindings_of_not_mem hnot, h.unused r (Nat.le_trans hnoted.le hr)]

end Separates

/-! ## What a computation looks at -/

namespace Run

section
variable {D D' : Distances} {ref : RefId} (h : D[ref]? = D'[ref]?)
include h

theorem readRef_congr (name : Token) :
    readRef (.byDistance D) ref name = readRef (.byDistance D') ref name := by
  unfold readRef
  simp only [h]
  rfl

theorem writeRef_congr (name : Token) (value : Value) :
    writeRef (.byDistance D) ref name value = writeRef (.byDistance D') ref name value := by
  unfold writeRef
  simp only [h]
  rfl

theorem superMethod_congr (keyword method : Token) :
    superMethod (.byDistance D) ref keyword method =
      superMethod (.byDistance D') ref keyword method := by
  unfold superMethod readSuper readReceiver
  simp only [h]

end

/-- **A computation looks at the distances of the references of its node only**; what it does with
tables that agree on those is the same. -/
theorem Task.plan_congr {D D' : Distances} (t : Task)
    (h : ∀ code ref name, t.node? = some code → Refers code ref name → D[ref]? = D'[ref]?) :
    t.plan (.byDistance D) = t.plan (.byDistance D') := by
  cases t with
  | program ss => cases ss <;> rfl
  | execAll ss => cases ss <;> rfl
  | evalAll es => cases es <;> rfl
  | loop => rfl
  | call => rfl
  | apply callee args site =>
    cases callee with
    | native f => cases f <;> rfl
    | _ => rfl
  | write ref name e value =>
    exact congrArg (Plan.operate · .done) (writeRef_congr (h _ _ _ rfl .assign) name value)
  | eval e =>
    cases e with
    | var ref name =>
      exact congrArg (Plan.operate · .done) (readRef_congr (h _ _ _ rfl .var) name)
    | this ref keyword =>
      exact congrArg (Plan.operate · .done) (readRef_congr (h _ _ _ rfl .this) keyword)
    | super ref keyword method =>
      exact congrArg (Plan.operate · .done) (superMethod_congr (h _ _ _ rfl .super) keyword method)
    | _ => rfl
  | exec st =>
    cases st with
    | declare name init => cases init <;> rfl
    | ret keyword value => cases value <;> rfl
    | classDecl decl =>
      have hclass : declareClass (.byDistance D) decl = declareClass (.byDistance D') decl := by
        funext m
        refine declareClass_congr fun parent hparent => ?_
        obtain ⟨name, superclass, interface, methods⟩ := decl
        cases hparent
        exact congrFun (readRef_congr (h _ _ _ rfl .superclass) parent.name) m
      exact congrArg (Plan.operate · fun _ => .done Flow.normal) hclass
    | _ => rfl

theorem Refers.mem_refs {code : Code} {ref : RefId} {name : Token} (h : Refers code ref name) :
    ref ∈ code.refs := by
  cases h <;> simp [Code.refs, Expr.refs, Stmt.refs, ClassDecl.refs]

end Run

/-! ## Sessions -/

/-- **The computation is one of the chunk**: its node is a part of the chunk's program, and what it does
with the table is what it would do with the entries of that chunk alone. -/
structure Compiled.Owns (c : Compiled) (table : Distances) (t : Task) : Prop where
  part (code : Code) (h : t.node? = some code) : ∃ v, Visits c.program v ∧ v.code = code
  plan : t.plan (.byDistance table) = t.plan (.byDistance c.table)

namespace Session

variable {s t : Session} {chunks : List Compiled} {source : String}

/-- **The session has compiled these chunks**: what it has run is among them, and its table keeps them
apart. -/
structure HasCompiled (s : Session) (chunks : List Compiled) : Prop where
  history : ∃ ps, History s ps ∧ ∀ p ∈ ps, ∃ c ∈ chunks, c.reports = [] ∧ c.program = p
  separates : Separates s.distances s.nextRef chunks

theorem HasCompiled.atTime (h : HasCompiled s chunks) (clock : Number) :
    HasCompiled (s.atTime clock) chunks := by
  obtain ⟨ps, hs, hps⟩ := h.history
  exact ⟨⟨ps, hs.clock clock, hps⟩, h.separates⟩

/-- A run takes no identities and notes nothing. -/
theorem execute_table {steps : Nat} {program : List Stmt} {outcome : Outcome}
    (h : s.execute steps program = some (outcome, t)) :
    t.distances = s.distances ∧ t.nextRef = s.nextRef := by
  unfold execute at h
  split at h <;> cases h <;> exact ⟨rfl, rfl⟩

/-- **A chunk leaves in the table what is noted for it**, whether or not it is run. -/
theorem run_table {steps : Nat} {outcome : Outcome}
    (h : s.run steps source = some (outcome, t)) :
    t.distances = s.distances.addBindings (compile source s.nextRef).noted ∧
      t.nextRef = (compile source s.nextRef).nextRef := by
  by_cases hreports : (compile source s.nextRef).reports = []
  · rw [run_eq_execute steps hreports] at h
    rw [Compiled.noted_of_reports hreports]
    exact execute_table h
  · rw [run_eq_rejected steps hreports] at h
    cases h
    exact ⟨rfl, rfl⟩

/-- **One more chunk is compiled.** -/
theorem HasCompiled.run (h : HasCompiled s chunks) {steps : Nat} {outcome : Outcome}
    (hrun : s.run steps source = some (outcome, t)) :
    HasCompiled t (chunks ++ [compile source s.nextRef]) := by
  obtain ⟨hdistances, hnext⟩ := run_table hrun
  refine ⟨?_, by rw [hdistances, hnext]; exact h.separates.note source⟩
  obtain ⟨ps, hs, hps⟩ := h.history
  have hearlier : ∀ p ∈ ps, ∃ c ∈ chunks ++ [compile source s.nextRef],
      c.reports = [] ∧ c.program = p := by
    intro p hp
    obtain ⟨c, hc, hrest⟩ := hps p hp
    exact ⟨c, List.mem_append_left _ hc, hrest⟩
  by_cases hreports : (compile source s.nextRef).reports = []
  · refine ⟨_, hs.ran hreports hrun, List.forall_mem_cons.mpr ⟨?_, hearlier⟩⟩
    exact ⟨_, List.mem_append_right _ List.mem_cons_self, hreports, rfl⟩
  · exact ⟨ps, hs.rejected hreports hrun, hearlier⟩

/-- **After every sequence of chunks the table keeps apart all that have been compiled**, those that
were rejected included. -/
theorem compiles_after {cs : List Chunk} (h : HasCompiled s chunks) (hafter : s.after cs = some t) :
    HasCompiled t (chunks ++ compileAll (cs.map (·.source)) s.nextRef) := by
  induction cs generalizing s chunks with
  | nil =>
    cases hafter
    simpa [compileAll] using h
  | cons c cs ih =>
    unfold after answer at hafter
    cases hrun : (s.atTime c.clock).run c.steps c.source with
    | none =>
      rw [hrun] at hafter
      cases hafter
    | some r =>
      obtain ⟨outcome, u⟩ := r
      rw [hrun] at hafter
      have hnext : u.nextRef = (compile c.source s.nextRef).nextRef := (run_table hrun).2
      have hrest := ih ((h.atTime c.clock).run hrun) hafter
      rw [hnext, List.append_assoc] at hrest
      exact hrest

/-- The table that an accepted chunk runs with keeps it apart from all before it. -/
theorem HasCompiled.keep (h : HasCompiled s chunks)
    (hreports : (compile source s.nextRef).reports = []) :
    Separates (s.keep (compile source s.nextRef)).distances (compile source s.nextRef).nextRef
      (chunks ++ [compile source s.nextRef]) := by
  have hnote := h.separates.note source
  dsimp only at hnote
  rwa [Compiled.noted_of_reports hreports] at hnote

/-- **Each computation of a run is one of a chunk**, and knows nothing of what is noted for others. -/
theorem HasCompiled.owned {a : Moment} (h : HasCompiled s chunks)
    (hreports : (compile source s.nextRef).reports = []) (ha : s.Passes source a) :
    ∃ c ∈ chunks ++ [compile source s.nextRef], c.reports = [] ∧
      c.Owns (s.keep (compile source s.nextRef)).distances a.task := by
  obtain ⟨ps, hs, hps⟩ := h.history
  cases hnode : a.task.node? with
  | none =>
    refine ⟨_, List.mem_append_right _ List.mem_cons_self, hreports, fun code hcode => ?_, ?_⟩
    · rw [hnode] at hcode
      cases hcode
    · refine a.task.plan_congr fun code ref name hcode => ?_
      rw [hnode] at hcode
      cases hcode
  | some code =>
    obtain ⟨Λ, hfits⟩ := ha.fits hs.fits hreports
    obtain ⟨v, hat, hv⟩ := hfits.at_node hnode
    obtain ⟨program, hprogram, hvisits⟩ := hat.known
    -- The program of the node is that of the chunk that runs now, or of an earlier one.
    obtain ⟨c, hc, hcreports, rfl⟩ : ∃ c ∈ chunks ++ [compile source s.nextRef],
        c.reports = [] ∧ c.program = program := by
      rcases List.mem_cons.mp hprogram with rfl | hprogram
      · exact ⟨_, List.mem_append_right _ List.mem_cons_self, hreports, rfl⟩
      · obtain ⟨c, hc, hrest⟩ := hps program hprogram
        exact ⟨c, List.mem_append_left _ hc, hrest⟩
    refine ⟨c, hc, hcreports, fun code' hcode' => ⟨v, hvisits, ?_⟩, ?_⟩
    · rw [hnode] at hcode'
      rw [hv, Option.some.inj hcode']
    · refine a.task.plan_congr fun code' ref name hcode' href => ?_
      rw [hnode] at hcode'
      obtain rfl := Option.some.inj hcode'
      exact (h.keep hreports).own c hc ref (refs_subset hvisits (hv ▸ href.mem_refs))

end Session

/-- **Identities never collide.** Those in a parsed program, with errors or without, are all different
and lie between the counter before the parse and after it; so they are all different over any sequence
of parses.

And after every sequence of chunks in a session, rejected chunks included, the table keeps apart what is
noted for each. Whenever a run comes to a computation, its node is a part of a chunk that has been
accepted, and what it does is what it would do if the table held the entries of that chunk alone. -/
theorem identities_apart :
    (∀ tokens nextRef, Fresh nextRef (parse tokens nextRef).nextRef
      (Stmt.refsAll (parse tokens nextRef).program)) ∧
    (∀ lists nextRef, Fresh nextRef (parseAll lists nextRef).2
      ((parseAll lists nextRef).1.flatMap Stmt.refsAll)) ∧
    ∀ clock capacity cs s, (Session.start clock capacity).after cs = some s →
      let chunks := compileAll (cs.map (·.source)) 0
      Separates s.distances s.nextRef chunks ∧
        ∀ source, (compile source s.nextRef).reports = [] → ∀ a, s.Passes source a →
          ∃ c ∈ chunks ++ [compile source s.nextRef], c.reports = [] ∧
            c.Owns (s.keep (compile source s.nextRef)).distances a.task := by
  refine ⟨parse_labels, parseAll_labels, fun clock capacity cs s hafter => ?_⟩
  have hstart : (Session.start clock capacity).HasCompiled [] :=
    ⟨⟨[], .start clock capacity, List.forall_mem_nil _⟩, .start⟩
  have hcompiled : s.HasCompiled (compileAll (cs.map (·.source)) 0) :=
    Session.compiles_after hstart hafter
  exact ⟨hcompiled.separates, fun source hreports a ha => hcompiled.owned hreports ha⟩

/-- The first statement reads a variable. -/
def readsFirst : List Stmt → Bool
  | .expr (.var _ _) :: _ => true
  | _ => false

/-- A chunk that declares a local variable twice is rejected, and its reference to it is noted all the
same. The next chunk reads a variable of that name, and is not concerned. -/
theorem identities_apart_rejected :
    ∃ s, (Session.start .nan none).after [⟨.nan, 9, "{let b=1;b;let b=2;}"⟩] = some s ∧
      s.distances[0]? = some 0 ∧ s.nextRef = 1 ∧
      Separates s.distances s.nextRef (compileAll ["{let b=1;b;let b=2;}"] 0) ∧
      ∃ a ref name, a.task = .eval (.var ref name) ∧ s.Passes "b;" a ∧
        ∃ c ∈ compileAll ["{let b=1;b;let b=2;}"] 0 ++ [compile "b;" s.nextRef], c.reports = [] ∧
          c.Owns (s.keep (compile "b;" s.nextRef)).distances a.task := by
  have hafter : ((Session.start .nan none).after [⟨.nan, 9, "{let b=1;b;let b=2;}"⟩]).map
      (fun s => (s.distances[0]?, s.nextRef)) = some (some 0, 1) := by
    decide +kernel
  obtain ⟨s, hs, htable⟩ := Option.map_eq_some_iff.mp hafter
  obtain ⟨hentry, hnext⟩ := Prod.mk.inj htable
  obtain ⟨-, -, hsession⟩ := identities_apart
  obtain ⟨hseparates, howned⟩ := hsession _ _ _ s hs
  refine ⟨s, hs, hentry, hnext, hseparates, ?_⟩
  have hreports : (compile "b;" s.nextRef).reports = [] := by
    rw [hnext]
    decide +kernel
  have hshape : readsFirst (compile "b;" s.nextRef).program = true := by
    rw [hnext]
    decide +kernel
  unfold readsFirst at hshape
  split at hshape
  case h_2 => cases hshape
  rename_i ref name ss hprogram
  have hpasses : s.Passes "b;" ⟨1, .eval (.var ref name), s.machine⟩ := by
    refine ⟨2, .tail (.single ?_) .evaluated⟩
    rw [hprogram]
    exact .firstOfProgram
  exact ⟨_, ref, name, rfl, hpasses, howned _ hreports _ hpasses⟩

end Scriptlet
