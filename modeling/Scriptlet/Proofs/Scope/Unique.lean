import Scriptlet.Proofs.Scope.Visit

/-!
# A part with a reference is visited once

The references of a program have identities of their own. Two visits that share one lie on one way
from the program down, since the ways that part from each other lead to parts with different
references. So a part that has a reference is visited once, in one state.

Results:
* `Visits.unique`: **visits of the same part, with a reference in it, are the same.**
-/

namespace Scriptlet.Scope

open Relation (ReflTransGen)

namespace Code

/-- The identities in a part. -/
def refs : Code → List RefId
  | expr e => e.refs
  | exprs es => Expr.refsAll es
  | stmt st => st.refs
  | stmts ss => Stmt.refsAll ss
  | function _ decl => decl.refs
  | methods ds => FunctionDecl.refsAll ds

/-- A size that every step makes smaller. A function is as large as its declaration, but smaller
than the statement that declares it. -/
noncomputable def size : Code → Nat
  | expr e => 2 * sizeOf e
  | exprs es => 2 * sizeOf es
  | stmt st => 2 * sizeOf st
  | stmts ss => 2 * sizeOf ss
  | function _ decl => 2 * sizeOf decl + 1
  | methods ds => 2 * sizeOf ds

end Code

theorem Step.size {v w : Visit} (h : Step v w) : w.code.size < v.code.size := by
  cases h <;> simp [Code.size] <;> omega

/-- A part has references of the whole. -/
theorem Step.refs {v w : Visit} (h : Step v w) : w.code.refs.Sublist v.code.refs := by
  cases h with
  | @condition c t o s ns => cases o <;> simp [Code.refs, Stmt.refs]
  | @thenDo c t o s ns => cases o <;> simp [Code.refs, Stmt.refs]
  | _ => simp [Code.refs, Expr.refs, Expr.refsAll, Stmt.refs, Stmt.refsAll, FunctionDecl.refs,
      FunctionDecl.refsAll, ClassDecl.refs]

theorem refs_subset {v w : Visit} (h : ReflTransGen Step v w) : w.code.refs ⊆ v.code.refs := by
  induction h with
  | refl => exact List.Subset.refl _
  | tail _ hstep ih => exact List.Subset.trans hstep.refs.subset ih

/-- **Steps that part lead to different references.** -/
theorem Step.eq_of_mem {v w w' : Visit} (h : Step v w) (h' : Step v w')
    (hv : v.code.refs.Nodup) {r : RefId} (hr : r ∈ w.code.refs) (hr' : r ∈ w'.code.refs) :
    w = w' := by
  cases h with
  | left =>
    cases h' with
    | left => rfl
    | right => exact (List.disjoint_of_nodup_append hv hr hr').elim
  | right =>
    cases h' with
    | left => exact (List.disjoint_of_nodup_append hv hr' hr).elim
    | right => rfl
  | leftLogical =>
    cases h' with
    | leftLogical => rfl
    | rightLogical => exact (List.disjoint_of_nodup_append hv hr hr').elim
  | rightLogical =>
    cases h' with
    | leftLogical => exact (List.disjoint_of_nodup_append hv hr' hr).elim
    | rightLogical => rfl
  | callee =>
    cases h' with
    | callee => rfl
    | arguments => exact (List.disjoint_of_nodup_append hv hr hr').elim
  | arguments =>
    cases h' with
    | callee => exact (List.disjoint_of_nodup_append hv hr' hr).elim
    | arguments => rfl
  | setObject =>
    cases h' with
    | setObject => rfl
    | setValue => exact (List.disjoint_of_nodup_append hv hr hr').elim
  | setValue =>
    cases h' with
    | setObject => exact (List.disjoint_of_nodup_append hv hr' hr).elim
    | setValue => rfl
  | firstExpr =>
    cases h' with
    | firstExpr => rfl
    | otherExprs => exact (List.disjoint_of_nodup_append hv hr hr').elim
  | otherExprs =>
    cases h' with
    | firstExpr => exact (List.disjoint_of_nodup_append hv hr' hr).elim
    | otherExprs => rfl
  | loopCondition =>
    cases h' with
    | loopCondition => rfl
    | loopBody => exact (List.disjoint_of_nodup_append hv hr hr').elim
  | loopBody =>
    cases h' with
    | loopCondition => exact (List.disjoint_of_nodup_append hv hr' hr).elim
    | loopBody => rfl
  | firstMethod =>
    cases h' with
    | firstMethod => rfl
    | otherMethods => exact (List.disjoint_of_nodup_append hv hr hr').elim
  | otherMethods =>
    cases h' with
    | firstMethod => exact (List.disjoint_of_nodup_append hv hr' hr).elim
    | otherMethods => rfl
  | firstStmt =>
    cases h' with
    | firstStmt => rfl
    | otherStmts => exact (List.disjoint_of_nodup_append hv hr hr').elim
  | otherStmts =>
    cases h' with
    | firstStmt => exact (List.disjoint_of_nodup_append hv hr' hr).elim
    | otherStmts => rfl
  | @condition c t o s ns =>
    cases h' with
    | condition => rfl
    | thenDo =>
      cases o with
      | none => exact (List.disjoint_of_nodup_append hv hr hr').elim
      | some e => exact (List.disjoint_of_nodup_append hv.of_append_left hr hr').elim
    | elseDo =>
      exact (List.disjoint_of_nodup_append hv (List.mem_append_left _ hr) hr').elim
  | @thenDo c t o s ns =>
    cases h' with
    | condition =>
      cases o with
      | none => exact (List.disjoint_of_nodup_append hv hr' hr).elim
      | some e => exact (List.disjoint_of_nodup_append hv.of_append_left hr' hr).elim
    | thenDo => rfl
    | elseDo =>
      exact (List.disjoint_of_nodup_append hv (List.mem_append_right _ hr) hr').elim
  | elseDo =>
    cases h' with
    | condition =>
      exact (List.disjoint_of_nodup_append hv (List.mem_append_left _ hr') hr).elim
    | thenDo =>
      exact (List.disjoint_of_nodup_append hv (List.mem_append_right _ hr') hr).elim
    | elseDo => rfl
  | _ =>
    cases h'
    rfl

variable {v w w' : Visit}

/-- Two parts that share a reference lie on one way. -/
theorem comparable (h : ReflTransGen Step v w) (h' : ReflTransGen Step v w')
    (hv : v.code.refs.Nodup) {r : RefId} (hr : r ∈ w.code.refs) (hr' : r ∈ w'.code.refs) :
    ReflTransGen Step w w' ∨ ReflTransGen Step w' w := by
  induction h using ReflTransGen.head_induction_on with
  | refl => exact .inl h'
  | @head v u hstep hrest ih =>
    rcases h'.cases_head with rfl | ⟨u', hstep', hrest'⟩
    · exact .inr (.head hstep hrest)
    · have hmem : r ∈ u.code.refs := refs_subset hrest hr
      have hmem' : r ∈ u'.code.refs := refs_subset hrest' hr'
      obtain rfl := hstep.eq_of_mem hstep' hv hmem hmem'
      exact ih hrest' (hv.sublist hstep.refs)

theorem size_le (h : ReflTransGen Step v w) : w.code.size ≤ v.code.size := by
  induction h with
  | refl => exact Nat.le_refl _
  | tail _ hstep ih => exact Nat.le_trans (Nat.le_of_lt hstep.size) ih

/-- A way from a part to itself takes no step. -/
theorem eq_of_code_eq (h : ReflTransGen Step v w) (hcode : w.code = v.code) : w = v := by
  rcases h.cases_head with rfl | ⟨u, hstep, hrest⟩
  · rfl
  · have hlt := Nat.lt_of_le_of_lt (size_le hrest) hstep.size
    rw [hcode] at hlt
    exact absurd hlt (Nat.lt_irrefl _)

/-- **A part with a reference is visited once.** -/
theorem Visits.unique {program : List Stmt} (hprogram : (Stmt.refsAll program).Nodup)
    (h : Visits program v) (h' : Visits program w) (hcode : v.code = w.code)
    (hrefs : v.code.refs ≠ []) : v = w := by
  obtain ⟨r, hr⟩ := List.exists_mem_of_ne_nil _ hrefs
  rcases comparable h h' hprogram hr (hcode ▸ hr) with hway | hway
  · exact (eq_of_code_eq hway hcode.symm).symm
  · exact eq_of_code_eq hway hcode

end Scriptlet.Scope
