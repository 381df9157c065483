import Scriptlet.Proofs.Session.History
import Scriptlet.Proofs.Parser.Like
import Scriptlet.Proofs.Scope.Like
import Scriptlet.Proofs.Run.Simulation

/-!
# Sessions that cannot be told apart

Two sessions may have given other identities to the references of the same texts. They answer each
other (`Session.pairing`) if both have been given and have the same distance. What answers each other
does so for ever, since distances are only noted under new identities (`Session.Extends`).

Results:
* `compile_like`, `reports_eq`: **the reports about a text do not depend on the session.**
* `Session.pairing_within`: what answers each other does so later.
* `Session.likeAll_pairing`: programs that are alike, without errors and with known distances, answer
  each other.
* `Session.executed_like`: programs that answer each other are run alike.
-/

namespace Scriptlet

open List (Forall₂)
open Scope Run

/-! ## The same text -/

theorem ScopeError.Like.eq {e e' : ScopeError} (h : e.Like Eq e') : e = e' := by
  obtain ⟨token, fault⟩ := e
  obtain ⟨htoken, hfault⟩ := h
  cases htoken.eq
  cases hfault
  rfl

/-- **What is reported about a text does not depend on identities**, and its trees are alike. -/
theorem compile_like (source : String) (ref ref' : RefId) :
    (compile source ref).syntaxReports = (compile source ref').syntaxReports ∧
      (compile source ref).scopeReports = (compile source ref').scopeReports ∧
      Forall₂ (Stmt.Like (.ofLines Eq)) (compile source ref).program
        (compile source ref').program := by
  have htokens : Forall₂ (Token.Like Eq) ((lex source).filterMap LexItem.token?)
      ((lex source).filterMap LexItem.token?) :=
    List.forall₂_same.mpr fun t _ => t.like_self
  obtain ⟨hprogram, hparse⟩ := parse_like htokens ref ref'
  have hscope := (resolve_like hprogram).1
  refine ⟨?_, ?_, hprogram⟩
  · unfold compile
    dsimp only
    rw [eq_of_forall₂ (fun _ _ h => h.eq Token.Like.eq) hparse]
  · unfold compile
    dsimp only
    rw [eq_of_forall₂ (fun _ _ h => h.eq) hscope]

/-- The reports about a text. -/
def reportsOf (source : String) : List Diagnostic := (compile source 0).reports

theorem reports_eq (source : String) (ref : RefId) :
    (compile source ref).reports = reportsOf source := by
  obtain ⟨hparse, hscope, -⟩ := compile_like source ref 0
  unfold reportsOf Compiled.reports
  rw [hparse, hscope]

/-! ## References of two sessions -/

namespace Session

/-- Identities have been given and distances noted, and what was known has not changed. -/
structure Extends (s t : Session) : Prop where
  nextRef : s.nextRef ≤ t.nextRef
  distances (r : RefId) (h : r < s.nextRef) : t.distances[r]? = s.distances[r]?

variable {s s' t t' : Session}

theorem Extends.refl (s : Session) : s.Extends s := ⟨Nat.le_refl _, fun _ _ => rfl⟩

/-- Distances are noted under new identities. -/
theorem extends_note {bs : List Binding} (hbs : Fresh s.nextRef t.nextRef (bs.map (·.ref)))
    (ht : t.distances = s.distances.addBindings bs) : s.Extends t := by
  refine ⟨hbs.le, fun r hr => ?_⟩
  rw [ht]
  refine s.distances.getElem?_addBindings_of_not_mem fun hmem => ?_
  exact Nat.lt_irrefl _ (Nat.lt_of_lt_of_le hr (hbs.within r hmem).1)

@[simp]
theorem machine_keep (s : Session) (c : Compiled) : (s.keep c).machine = s.machine := rfl

theorem extends_keep (s : Session) (source : String) :
    s.Extends (s.keep (compile source s.nextRef)) :=
  extends_note (fresh_bindings (compile_fresh source s.nextRef)) rfl

theorem extends_reject (s : Session) (source : String) (reports : List Diagnostic) :
    s.Extends (s.reject (compile source s.nextRef) reports) := by
  have hfresh := compile_fresh source s.nextRef
  refine extends_note ?_ rfl
  split_ifs
  · exact fresh_bindings hfresh
  · exact .nil hfresh.le

/-- References of two sessions answer each other if they have been given and have the same
distance. -/
def pairing (line : Nat → Nat → Prop) (s s' : Session) : Pairing :=
  ⟨line, fun r r' => r < s.nextRef ∧ r' < s'.nextRef ∧ s.distances[r]? = s'.distances[r']?⟩

theorem pairing_within {line : Nat → Nat → Prop} (h : s.Extends t) (h' : s'.Extends t') :
    (s.pairing line s').Within (t.pairing line t') := by
  refine ⟨fun _ _ hl => hl, fun r r' ⟨hr, hr', hd⟩ => ?_⟩
  refine ⟨Nat.lt_of_lt_of_le hr h.nextRef, Nat.lt_of_lt_of_le hr' h'.nextRef, ?_⟩
  rw [h.distances r hr, h'.distances r' hr', hd]

theorem sameDistances_pairing (line : Nat → Nat → Prop) (s s' : Session) :
    SameDistances (s.pairing line s') s.distances s'.distances :=
  fun _ _ h => h.2.2

/-- Machines that are alike are so when chunks are kept. -/
theorem keep_machine_like {line : Nat → Nat → Prop} {source : String} {w : Session}
    (h : s.machine.Like (s.pairing line s') s'.machine) (hw : s'.Extends w)
    (hm : w.machine = s'.machine) :
    (s.keep (compile source s.nextRef)).machine.Like
      ((s.keep (compile source s.nextRef)).pairing line w) w.machine := by
  rw [machine_keep, hm]
  exact h.mono (pairing_within (extends_keep s source) hw)

/-- **Programs that are alike, without errors and with known distances, answer each other.** The
second one may be part of a program, walked over from `u` on. -/
theorem likeAll_pairing {line : Nat → Nat → Prop} {p p' : List Stmt} {u T : State}
    (h : Forall₂ (Stmt.Like (.ofLines line)) p p')
    (hclean : Clean s.distances (walkStmts p {})) (hgiven : ∀ r ∈ Stmt.refsAll p, r < s.nextRef)
    (hu : State.Like line {} u) (hT : Noted (walkStmts p' u) T)
    (hbound' : ∀ b ∈ T.bindings, s'.distances[b.ref]? = b.distance)
    (hgiven' : ∀ b ∈ T.bindings, b.ref < s'.nextRef) :
    Forall₂ (Stmt.Like (s.pairing line s')) p p' := by
  have hwithin : Pairing.Within ⟨line, BoundAlike (walkStmts p {}) T⟩ (s.pairing line s') := by
    refine ⟨fun _ _ hl => hl, ?_⟩
    rintro _ _ ⟨b, hb, b', hb', rfl, rfl, hd⟩
    refine ⟨hgiven _ (ref_mem_refsAll hb), hgiven' _ hb', ?_⟩
    rw [hclean.bindings b hb, hbound' b' hb', hd]
  exact Stmt.Like.monoAll hwithin (bound_walkStmts h hu ⟨.refl _, hT, hclean.errors⟩)

/-! ## Runs -/

/-- **How programs that answer each other end in two sessions**: with the same outcome, and with faults
and machines that are alike. -/
inductive Executed (line : Nat → Nat → Prop) (s s' : Session) :
    Option (Outcome × Session) → Option (Outcome × Session) → Prop
  | completed {m m' : Machine} (hm : m.Like (s.pairing line s') m') :
    Executed line s s' (some (.completed, { s with machine := m }))
      (some (.completed, { s' with machine := m' }))
  | fault {f f' : Fault} {m m' : Machine} (hf : f.Like line f')
      (hm : m.Like (s.pairing line s') m') :
    Executed line s s'
      (some (.runtimeError,
        { s with machine := m, diagnostics := s.diagnostics.report f.diagnostic }))
      (some (.runtimeError,
        { s' with machine := m', diagnostics := s'.diagnostics.report f'.diagnostic }))
  | exhausted : Executed line s s' none none

/-- **Programs that answer each other are run alike.** -/
theorem executed_like {line : Nat → Nat → Prop} {program program' : List Stmt}
    (hm : s.machine.Like (s.pairing line s') s'.machine)
    (hprogram : Forall₂ (Stmt.Like (s.pairing line s')) program program') (steps : Nat) :
    Executed line s s' (s.execute steps program) (s'.execute steps program') := by
  have hresult := agrees_interpret (sameDistances_pairing line s s') steps hprogram hm
  unfold execute scoping
  generalize interpret (.byDistance s.distances) steps program s.machine = r at hresult ⊢
  generalize interpret (.byDistance s'.distances) steps program' s'.machine = r' at hresult ⊢
  cases hresult with
  | ok _ hm => exact .completed hm
  | fault hf hm => exact .fault hf hm
  | exhausted => exact .exhausted

end Session

end Scriptlet
