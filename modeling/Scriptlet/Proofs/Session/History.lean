import Scriptlet.Proofs.Run.Moment
import Scriptlet.Proofs.Scope.Unique
import Scriptlet.Proofs.Grammar.Completeness
import Scriptlet.Session

/-!
# The history of a session

A session comes about by running chunks one after the other. `History s ps` says that `s` did, and
that `ps` are the programs of the chunks without reports, latest first. What holds after every
history (`Fits`): the distances of all these programs are known, since a new chunk only adds
distances under identities of its own, and the store fits them all.

Results:
* `Session.History.fits`: **the invariant holds after every history**, also after faults.
* `Session.Fits.keep`, `Session.Fits.execute`: a chunk is kept and run.
-/

namespace Scriptlet

open Scope Run

/-! ## Distances -/

namespace Distances

theorem addBindings_cons (ds : Distances) (b : Binding) (bs : List Binding) :
    ds.addBindings (b :: bs) =
      addBindings (match b.distance with | some d => ds.insert b.ref d | none => ds) bs := rfl

theorem getElem?_insert_ne (ds : Distances) {ref ref' : RefId} (d : Nat) (h : ref ≠ ref') :
    (ds.insert ref d)[ref']? = ds[ref']? := by
  rw [Std.TreeMap.getElem?_insert, if_neg]
  simpa using h

/-- Distances of other references stay as they are. -/
theorem getElem?_addBindings_of_not_mem {bs : List Binding} {ref : RefId} (ds : Distances)
    (h : ref ∉ bs.map (·.ref)) : (ds.addBindings bs)[ref]? = ds[ref]? := by
  induction bs generalizing ds with
  | nil => rfl
  | cons b bs ih =>
    rw [List.map_cons, List.mem_cons, not_or] at h
    rw [addBindings_cons, ih _ h.2]
    cases b.distance with
    | none => rfl
    | some d => exact ds.getElem?_insert_ne d (Ne.symm h.1)

/-- A new reference has the distance that was found for it. -/
theorem getElem?_addBindings_of_mem {bs : List Binding} {b : Binding} (ds : Distances)
    (hnodup : (bs.map (·.ref)).Nodup) (hb : b ∈ bs) (hnew : ∀ b ∈ bs, ds[b.ref]? = none) :
    (ds.addBindings bs)[b.ref]? = b.distance := by
  induction bs generalizing ds with
  | nil => cases hb
  | cons first bs ih =>
    obtain ⟨hfirst, hnodup⟩ := List.nodup_cons.mp hnodup
    have hrest : ∀ b ∈ bs, b.ref ≠ first.ref := fun b hb heq =>
      hfirst (List.mem_map.mpr ⟨b, hb, heq⟩)
    rw [addBindings_cons]
    rcases List.mem_cons.mp hb with rfl | hb
    · rw [getElem?_addBindings_of_not_mem _ hfirst]
      cases hd : b.distance with
      | none => exact hnew b List.mem_cons_self
      | some d => exact Std.TreeMap.getElem?_insert_self
    · refine ih _ hnodup hb fun b' hb' => ?_
      have := hnew b' (List.mem_cons_of_mem _ hb')
      cases first.distance with
      | none => exact this
      | some d =>
        rw [← this]
        exact ds.getElem?_insert_ne d (Ne.symm (hrest b' hb'))

end Distances

/-! ## Chunks -/

theorem syntaxReports_eq_nil {source : String} {ref : RefId}
    (h : (compile source ref).reports = []) : (compile source ref).syntaxReports = [] := by
  unfold Compiled.reports at h
  split_ifs at h with hempty
  · exact List.isEmpty_iff.mp hempty
  · exact h

/-- **A chunk without reports is a program of the grammar.** -/
theorem compile_program {source : String} {ref : RefId} (h : (compile source ref).reports = []) :
    Grammar.Program (Grammar.bodyTokens source) (compile source ref).program := by
  obtain ⟨eof, htokens, hbody, heof⟩ := Grammar.tokens_eq_body source
  have herrors : (parse ((lex source).filterMap LexItem.token?) ref).errors = #[] := by
    have := (List.append_eq_nil_iff.mp (syntaxReports_eq_nil h)).2
    simpa using this
  rw [htokens] at herrors
  have := Grammar.program_of_parse (fun t ht => (hbody t ht).inside) heof ref herrors
  rwa [← htokens] at this

/-- **What can be said of a chunk without reports**: its tree is proper, and the walk over it notes
no error. -/
theorem compile_sound {source : String} {ref : RefId} (h : (compile source ref).reports = []) :
    Stmt.ProperAll (compile source ref).program ∧
      (walkStmts (compile source ref).program {}).errors = #[] := by
  obtain ⟨-, -, hbody, -⟩ := Grammar.tokens_eq_body source
  have hscope : (compile source ref).scopeReports = [] := by
    have hparsed := syntaxReports_eq_nil h
    unfold Compiled.reports at h
    rwa [hparsed, if_pos List.isEmpty_nil] at h
  refine ⟨(compile_program h).proper hbody, ?_⟩
  have : (walkStmts (compile source ref).program {}).errors.toList.map
      ScopeError.diagnostic = [] := hscope
  simpa using this

/-- The references of a chunk have identities that were not given before. -/
theorem compile_fresh (source : String) (ref : RefId) :
    Fresh ref (compile source ref).nextRef (Stmt.refsAll (compile source ref).program) :=
  parse_labels _ ref

/-- The bindings of a chunk that a session notes: none if its syntax is wrong. -/
def Compiled.noted (c : Compiled) : List Binding :=
  if c.syntaxReports.isEmpty then c.bindings.toList else []

/-- They are of references of the chunk, and of each once. -/
theorem compile_noted (source : String) (ref : RefId) :
    Fresh ref (compile source ref).nextRef ((compile source ref).noted.map (·.ref)) := by
  have hfresh := compile_fresh source ref
  unfold Compiled.noted
  split_ifs
  · exact fresh_bindings hfresh
  · exact .nil hfresh.le

/-! ## Sessions -/

namespace Session

/-- **The session came about by running chunks**, and these are the programs of those without
reports, latest first. The clock may go on between chunks. -/
inductive History : Session → List (List Stmt) → Prop
  | start (clock : Number) (capacity : Option Nat) : History (.start clock capacity) []
  | clock {s : Session} {ps : List (List Stmt)} (h : History s ps) (clock : Number) :
    History { s with machine := { s.machine with clock } } ps
  | rejected {s s' : Session} {ps : List (List Stmt)} {steps : Nat} {source : String}
      {outcome : Outcome} (h : History s ps)
      (hreports : (compile source s.nextRef).reports ≠ [])
      (hrun : s.run steps source = some (outcome, s')) : History s' ps
  | ran {s s' : Session} {ps : List (List Stmt)} {steps : Nat} {source : String}
      {outcome : Outcome} (h : History s ps)
      (hreports : (compile source s.nextRef).reports = [])
      (hrun : s.run steps source = some (outcome, s')) :
    History s' ((compile source s.nextRef).program :: ps)

/-- **The invariant of a session** that has run programs. -/
structure Fits (s : Session) (ps : List (List Stmt)) : Prop where
  resolved (program : List Stmt) (h : program ∈ ps) : Resolved s.distances program
  nodup (program : List Stmt) (h : program ∈ ps) : (Stmt.refsAll program).Nodup
  given (program : List Stmt) (h : program ∈ ps) : ∀ r ∈ Stmt.refsAll program, r < s.nextRef
  apart (p q : List Stmt) (hp : p ∈ ps) (hq : q ∈ ps) :
    ∀ r ∈ Stmt.refsAll p, r ∈ Stmt.refsAll q → p = q
  distances (ref : RefId) (h : s.nextRef ≤ ref) : s.distances[ref]? = none
  heap : ∃ Λ, HeapFits (· ∈ ps) Λ s.machine.store
  current : s.machine.current = Store.global

variable {s : Session} {ps : List (List Stmt)} {source : String}

/-- **Distances may be noted under new identities**: nothing that was known of programs changes. -/
theorem Fits.note (h : Fits s ps) {bs : List Binding} {next : RefId}
    (hbs : Fresh s.nextRef next (bs.map (·.ref))) :
    Fits { s with distances := s.distances.addBindings bs, nextRef := next } ps := by
  refine ⟨fun program hprogram => ?_, h.nodup, fun program hprogram r hr => ?_, h.apart,
    fun ref href => ?_, h.heap, h.current⟩
  · obtain ⟨⟨herrors, hbindings⟩, hproper⟩ := h.resolved program hprogram
    refine ⟨⟨herrors, fun b hb => ?_⟩, hproper⟩
    rw [← hbindings b hb]
    refine s.distances.getElem?_addBindings_of_not_mem fun hmem => ?_
    have hlt := h.given program hprogram b.ref (ref_mem_refsAll hb)
    exact Nat.lt_irrefl _ (Nat.lt_of_lt_of_le hlt (hbs.within _ hmem).1)
  · exact Nat.lt_of_lt_of_le (h.given program hprogram r hr) hbs.le
  · have hold : s.distances[ref]? = none := h.distances ref (Nat.le_trans hbs.le href)
    refine (s.distances.getElem?_addBindings_of_not_mem fun hmem => ?_).trans hold
    exact Nat.lt_irrefl _ (Nat.lt_of_lt_of_le (hbs.within ref hmem).2 href)

/-- The distances of a chunk are kept, and those of all programs before. -/
theorem Fits.keep_resolved (h : Fits s ps) (hreports : (compile source s.nextRef).reports = [])
    (program : List Stmt) (hprogram : program ∈ (compile source s.nextRef).program :: ps) :
    Resolved (s.keep (compile source s.nextRef)).distances program := by
  obtain ⟨hproper, herrors⟩ := compile_sound hreports
  have hfresh := fresh_bindings (compile_fresh source s.nextRef)
  rcases List.mem_cons.mp hprogram with rfl | hprogram
  · refine ⟨⟨herrors, fun b hb => ?_⟩, hproper⟩
    refine s.distances.getElem?_addBindings_of_mem hfresh.nodup (Array.mem_toList_iff.mpr hb) ?_
    intro b' hb'
    exact h.distances b'.ref (hfresh.within b'.ref (List.mem_map_of_mem hb')).1
  · exact (h.note hfresh).resolved program hprogram

/-- **A chunk without reports can be kept**: its distances are added under identities of its own. -/
theorem Fits.keep (h : Fits s ps) (hreports : (compile source s.nextRef).reports = []) :
    Fits (s.keep (compile source s.nextRef)) ((compile source s.nextRef).program :: ps) := by
  have hfresh := compile_fresh source s.nextRef
  have hnoted := h.note (fresh_bindings hfresh)
  have hnew {r : RefId} {q : List Stmt} (hr : r ∈ Stmt.refsAll (compile source s.nextRef).program)
      (hq : q ∈ ps) (hr' : r ∈ Stmt.refsAll q) : False :=
    Nat.lt_irrefl _ (Nat.lt_of_lt_of_le (h.given q hq r hr') (hfresh.within r hr).1)
  obtain ⟨Λ, hheap⟩ := h.heap
  refine ⟨h.keep_resolved hreports, fun program hprogram => ?_, fun program hprogram r hr => ?_,
    fun p q hp hq r hr hr' => ?_, hnoted.distances,
    ⟨Λ, hheap.mono fun _ hp => List.mem_cons_of_mem _ hp⟩, h.current⟩
  · rcases List.mem_cons.mp hprogram with rfl | hprogram
    · exact hfresh.nodup
    · exact h.nodup program hprogram
  · rcases List.mem_cons.mp hprogram with rfl | hprogram
    · exact (hfresh.within r hr).2
    · exact hnoted.given program hprogram r hr
  · rcases List.mem_cons.mp hp with rfl | hp
    · rcases List.mem_cons.mp hq with rfl | hq
      · rfl
      · exact (hnew hr hq hr').elim
    · rcases List.mem_cons.mp hq with rfl | hq
      · exact (hnew hr' hp hr).elim
      · exact h.apart p q hp hq r hr hr'

/-- **A chunk may be rejected**: the distances it leaves behind are of references of its own. -/
theorem Fits.reject (h : Fits s ps) (source : String) (reports : List Diagnostic) :
    Fits (s.reject (compile source s.nextRef) reports) ps :=
  { h.note (compile_noted source s.nextRef) with }

/-- What the programs of the session may rely on. -/
def Fits.world (h : Fits s ps) : World := ⟨(· ∈ ps), s.distances, h.resolved⟩

/-- **Programs of the session can be run in it.** What was written before is not taken back, and the
clock stands still. -/
theorem Fits.executed (h : Fits s ps) {steps : Nat} {program : List Stmt} {outcome : Outcome}
    {s' : Session} (hprogram : program ∈ ps)
    (hrun : s.execute steps program = some (outcome, s')) :
    Fits s' ps ∧ s.machine.output.toList <+: s'.machine.output.toList ∧
      s'.machine.clock = s.machine.clock := by
  obtain ⟨Λ, hheap⟩ := h.heap
  have hends := ends_interpret (W := h.world) steps hprogram hheap h.current
  change Ends _ _ _ (interpret s.scoping steps program s.machine) _ at hends
  unfold Session.execute at hrun
  cases hr : interpret s.scoping steps program s.machine with
  | ok a m =>
    rw [hr] at hrun hends
    cases hrun
    obtain ⟨Λ', hfollows, -⟩ := hends
    exact ⟨{ h with heap := ⟨Λ', hfollows.heap⟩, current := hfollows.current.trans h.current },
      hfollows.output, hfollows.clock⟩
  | fault f m =>
    rw [hr] at hrun hends
    cases hrun
    obtain ⟨⟨Λ', hfollows⟩, -⟩ := hends
    exact ⟨{ h with heap := ⟨Λ', hfollows.heap⟩, current := hfollows.current.trans h.current },
      hfollows.output, hfollows.clock⟩
  | exhausted =>
    rw [hr] at hrun
    cases hrun

theorem Fits.execute (h : Fits s ps) {steps : Nat} {program : List Stmt} {outcome : Outcome}
    {s' : Session} (hprogram : program ∈ ps)
    (hrun : s.execute steps program = some (outcome, s')) : Fits s' ps :=
  (h.executed hprogram hrun).1

/-- A chunk without reports is run. -/
theorem run_eq_execute (steps : Nat) (hreports : (compile source s.nextRef).reports = []) :
    s.run steps source =
      (s.keep (compile source s.nextRef)).execute steps (compile source s.nextRef).program := by
  unfold run runUnless
  rw [if_pos (by simpa using hreports)]

/-- A chunk with reports is not. -/
theorem run_eq_rejected (steps : Nat) (hreports : (compile source s.nextRef).reports ≠ []) :
    s.run steps source = some (.compileError,
      s.reject (compile source s.nextRef) (compile source s.nextRef).reports) := by
  unfold run runUnless
  rw [if_neg (by simpa using hreports)]

/-- The first store binds the built-in modules only. -/
theorem heapFits_initial : HeapFits (· ∈ ([] : List (List Stmt))) [[]] Store.initial := by
  have hget (f : FrameId) (x : String) (v : Value) (h : Store.initial.get? f x = some v) :
      (x = "console" ∨ x = "Date") ∧ ∃ l, v = .library l := by
    cases f with
    | zero =>
      change Bindings.get? [("console", .library .console), ("Date", .library .date)] x = _ at h
      rw [Bindings.get?_cons, Bindings.get?_cons, Bindings.get?_nil] at h
      split_ifs at h with hx hx
      · exact ⟨.inl hx, _, (Option.some.inj h).symm⟩
      · exact ⟨.inr hx, _, (Option.some.inj h).symm⟩
    | succ f => cases h
  have hlink (f : FrameId) : Store.initial.enclosing? f = none := by
    cases f <;> rfl
  refine ⟨rfl, Nat.one_pos, rfl, fun f g h => ?_, fun f names hf hnames => ?_, fun f x v h => ?_,
    nofun, nofun⟩
  · rw [hlink] at h
    cases h
  · cases f with
    | zero => exact absurd rfl hf
    | succ f => cases hnames
  · obtain ⟨hx, l, rfl⟩ := hget f x v h
    refine ⟨trivial, ?_, ?_⟩
    · rintro rfl
      simp at hx
    · rintro rfl
      simp at hx

/-- **The invariant holds after every history.** -/
theorem History.fits (h : History s ps) : Fits s ps := by
  induction h with
  | start clock capacity =>
    exact ⟨nofun, nofun, nofun, nofun, fun _ _ => Std.TreeMap.getElem?_emptyc,
      ⟨_, heapFits_initial⟩, rfl⟩
  | clock _ _ ih => exact { ih with }
  | rejected _ hreports hrun ih =>
    rw [run_eq_rejected _ hreports] at hrun
    cases hrun
    exact ih.reject _ _
  | ran _ hreports hrun ih =>
    rw [run_eq_execute _ hreports] at hrun
    exact (ih.keep hreports).execute List.mem_cons_self hrun

end Session

end Scriptlet
