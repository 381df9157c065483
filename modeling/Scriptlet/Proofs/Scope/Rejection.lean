import Scriptlet.Proofs.Scope.Visit
import Scriptlet.Proofs.Scope.IllFormed

/-!
# The walk rejects the ill-formed programs

The walk carries a stack of scopes and two registers, and what is around a place has to be read off
them: for a statement (`Reflects`), and for an expression, which may stand in the initializer of a
local variable (`Sees`). A name that is declared twice is reported at the second declaration, where the
rule is about the whole scope. So a statement is walked over quietly iff nothing in it is wrong and it
declares names that are new in the innermost scope (`MayDeclare`); what it leaves there is known also
when there are errors (`Adds`).

Results:
* `adds_walkStmt`: what a statement leaves in the innermost scope.
* `quiet_walkExpr`, `quiet_walkStmt`: the walk over a part is quiet iff nothing in it is wrong.
* `rejects_iff_illFormed`: **a program has an error iff it is ill-formed.**
-/

namespace Scriptlet.Scope

open State

/-! ## The innermost scope -/

namespace State

/-- What the innermost scope says of a name. -/
def found (s : State) (x : String) : Option Bool := s.scopes.head?.bind (·.lookup x)

/-- The names can be declared in the innermost scope. -/
def MayDeclare (s : State) (names : List String) : Prop :=
  s.scopes ≠ [] → names.Nodup ∧ ∀ x ∈ names, s.found x = none

end State

/-- Nothing has been noted. -/
def Quiet (s t : State) : Prop := t.errors = s.errors

/-- **The names have been declared in the innermost scope**, if there is one, and can be read. -/
structure Adds (s : State) (names : List String) (t : State) : Prop where
  advance : Advance s t
  found (x : String) : t.found x = if s.scopes ≠ [] ∧ x ∈ names then some true else s.found x

section
variable {s t u : State} {names names' : List String}

theorem isUnreadable_iff_found (s : State) (x : String) :
    s.isUnreadable x = true ↔ s.found x = some false := by
  unfold State.isUnreadable State.found
  cases s.scopes <;> simp

theorem found_of_scopes (h : t.scopes = s.scopes) (x : String) : t.found x = s.found x := by
  rw [State.found, State.found, h]

theorem found_global (h : s.scopes = []) (x : String) : s.found x = none := by
  simp [State.found, h]

theorem mayDeclare_nil (s : State) : s.MayDeclare [] := fun _ => ⟨List.nodup_nil, nofun⟩

theorem mayDeclare_singleton (s : State) (x : String) : s.MayDeclare [x] ↔ s.found x = none := by
  by_cases hs : s.scopes = []
  · simp [State.MayDeclare, hs, found_global hs]
  · simp [State.MayDeclare, hs]

/-- **Two walks are quiet together iff each is.** -/
theorem quiet_trans_iff (h : Noted s t) (h' : Noted t u) :
    Quiet s u ↔ Quiet s t ∧ Quiet t u := by
  constructor
  · intro hq
    have hlist : s.errors.toList = t.errors.toList :=
      h.errors.eq_of_length (Nat.le_antisymm h.errors.length_le
        (hq ▸ h'.errors.length_le : t.errors.toList.length ≤ s.errors.toList.length))
    have ht : Quiet s t := (Array.toList_inj.mp hlist).symm
    exact ⟨ht, hq.trans ht.symm⟩
  · rintro ⟨ht, hu⟩
    exact hu.trans ht

namespace Adds

theorem same (h : Advance s t) (hscopes : t.scopes = s.scopes) : Adds s [] t :=
  ⟨h, fun x => by simp [found_of_scopes hscopes]⟩

theorem trans (h : Adds s names t) (h' : Adds t names' u) : Adds s (names ++ names') u := by
  refine ⟨h.advance.trans h'.advance, fun x => ?_⟩
  have hnested := h.advance.nested
  rw [h'.found, h.found]
  by_cases hs : s.scopes = []
  · simp [hs, hnested]
  · by_cases hx : x ∈ names' <;> simp [hs, hnested, hx]

/-- **Names that can be declared one after the other.** -/
theorem mayDeclare_append (h : Adds s names t) :
    s.MayDeclare (names ++ names') ↔ s.MayDeclare names ∧ t.MayDeclare names' := by
  unfold State.MayDeclare
  rw [ne_eq, ne_eq, h.advance.nested]
  by_cases hs : s.scopes = []
  · simp [hs]
  have hfound (x : String) : t.found x = none ↔ x ∉ names ∧ s.found x = none := by
    rw [h.found]
    by_cases hx : x ∈ names <;> simp [hs, hx]
  simp only [hs, not_false_eq_true, forall_const, hfound, List.nodup_append', List.mem_append]
  constructor
  · rintro ⟨⟨hnames, hnames', hdisjoint⟩, hall⟩
    exact ⟨⟨hnames, fun x hx => hall x (.inl hx)⟩, hnames',
      fun x hx => ⟨fun hx' => hdisjoint hx' hx, hall x (.inr hx)⟩⟩
  · rintro ⟨⟨hnames, hall⟩, hnames', hall'⟩
    refine ⟨⟨hnames, hnames', fun x hx hx' => (hall' x hx').1 hx⟩, ?_⟩
    rintro x (hx | hx)
    · exact hall x hx
    · exact (hall' x hx).2

theorem mayDeclare (h : Adds s [] t) : t.MayDeclare names ↔ s.MayDeclare names := by
  rw [← List.nil_append names, h.mayDeclare_append, List.nil_append]
  exact (and_iff_right (mayDeclare_nil s)).symm

theorem introduce (s : State) (name : Token) : Adds s [name.lexeme] (s.introduce name) := by
  refine ⟨.introduce s name, fun x => ?_⟩
  rcases introduce_cases s name with ⟨hs, hs'⟩ | ⟨scope, scope', rest, hs, hs', hlookup⟩
  · simp [State.found, hs, hs']
  · simp [State.found, hs, hs', hlookup]

theorem introduceAll (params : List Token) (s : State) :
    Adds s (params.map (·.lexeme)) (params.foldl State.introduce s) := by
  induction params generalizing s with
  | nil => exact .same (.refl s) rfl
  | cons p ps ih => exact (introduce s p).trans (ih _)

end Adds

/-! ## Single steps -/

theorem not_quiet_note (s : State) (t : Token) (f : ScopeFault) : ¬ Quiet s (s.note t f) := by
  intro h
  have := congrArg Array.size h
  simp [State.note] at this

@[simp]
theorem quiet_refl (s : State) : Quiet s s := rfl

@[simp]
theorem quiet_bind {ref : RefId} {name : Token} : Quiet s (t.bind ref name) ↔ Quiet s t := Iff.rfl

theorem quiet_declare (s : State) (name : Token) :
    Quiet s (s.declare name) ↔ s.found name.lexeme = none := by
  unfold State.declare
  cases hs : s.scopes with
  | nil => simp [Quiet, State.found, hs]
  | cons scope rest =>
    cases hl : scope.lookup name.lexeme with
    | none => simp [Quiet, State.found, State.add, hs, hl]
    | some b => simpa [State.found, hs, hl] using not_quiet_note s name .alreadyDeclared

/-- A name that has been declared and cannot be read yet. -/
theorem found_declare (h : s.found name.lexeme = none) (x : String) :
    (s.declare name).found x =
      if s.scopes ≠ [] ∧ name.lexeme = x then some false else s.found x := by
  unfold State.declare
  cases hs : s.scopes with
  | nil => simp
  | cons scope rest =>
    have hl : scope.lookup name.lexeme = none := by simpa [State.found, hs] using h
    simp [State.found, State.add, hs, hl, lookup_cons, eq_comm]

theorem quiet_define (s : State) (name : Token) : Quiet s (s.define name) := by
  unfold State.define State.add
  cases hs : s.scopes <;> rfl

theorem quiet_introduce (s : State) (name : Token) :
    Quiet s (s.introduce name) ↔ s.MayDeclare [name.lexeme] := by
  have hdefine : Noted (s.declare name) ((s.declare name).define name) := (Advance.add _ _ _).noted
  rw [State.introduce, quiet_trans_iff (Advance.declare s name).noted hdefine, quiet_declare,
    mayDeclare_singleton]
  exact and_iff_left (quiet_define _ _)

theorem quiet_introduceAll (params : List Token) (s : State) :
    Quiet s (params.foldl State.introduce s) ↔ s.MayDeclare (params.map (·.lexeme)) := by
  induction params generalizing s with
  | nil => exact iff_of_true rfl (mayDeclare_nil s)
  | cons p ps ih =>
    have hp := Adds.introduce s p
    rw [List.foldl_cons, quiet_trans_iff hp.advance.noted (Advance.foldl_introduce ps _).noted,
      quiet_introduce, ih]
    exact hp.mayDeclare_append.symm

end

/-! ## Expressions -/

/-- What an expression sees of the state of the walk is what is around it. -/
structure Sees (ns : List Node) (s : State) : Prop where
  classes : s.classes = classContextIn ns
  unreadable (x : String) : s.isUnreadable x = true ↔ Initializes ns x

section
variable {s t : State} {ns : List Node}

/-- The parts of an expression see the same. -/
theorem Sees.inside (h : Sees ns s) (e : Expr) : Sees (.expr e :: ns) s := by
  refine ⟨h.classes.trans (classContextIn_cons rfl).symm, fun x => ?_⟩
  rw [initializes_cons rfl]
  exact h.unreadable x

/-- An expression changes nothing of what is seen. -/
theorem Sees.walkExpr (h : Sees ns s) (e : Expr) : Sees ns (walkExpr e s) := by
  refine ⟨(advance_walkExpr e s).classes.trans h.classes, fun x => ?_⟩
  rw [isUnreadable_iff_found, found_of_scopes (scopes_walkExpr e s), ← isUnreadable_iff_found]
  exact h.unreadable x

theorem quiet_var (h : Sees ns s) (ref : RefId) (name : Token) :
    Quiet s (walkExpr (.var ref name) s) ↔ Place.Faultless ⟨.expr (.var ref name), ns⟩ := by
  have hwrong : Wrong ⟨.expr (.var ref name), ns⟩ ↔ s.isUnreadable name.lexeme = true := by
    rw [h.unreadable]
    exact ⟨fun | .ownInitializer h => h, .ownInitializer⟩
  rw [faultless_iff, hwrong]
  unfold Scope.walkExpr
  cases hx : s.isUnreadable name.lexeme with
  | false => simp [Node.parts]
  | true => simpa [Node.parts] using not_quiet_note s name .ownInitializer

theorem quiet_this (h : Sees ns s) (ref : RefId) (keyword : Token) :
    Quiet s (walkExpr (.this ref keyword) s) ↔
      Place.Faultless ⟨.expr (.this ref keyword), ns⟩ := by
  have hwrong : Wrong ⟨.expr (.this ref keyword), ns⟩ ↔ s.classes = .none := by
    rw [h.classes, classContextIn_eq_none]
    exact ⟨fun | .thisOutsideClass h => h, .thisOutsideClass⟩
  rw [faultless_iff, hwrong]
  unfold Scope.walkExpr
  by_cases hc : s.classes = .none
  · simpa [Node.parts, hc] using not_quiet_note s keyword .thisOutsideClass
  · simp [Node.parts, hc]

theorem quiet_super (h : Sees ns s) (ref : RefId) (keyword method : Token) :
    Quiet s (walkExpr (.super ref keyword method) s) ↔
      Place.Faultless ⟨.expr (.super ref keyword method), ns⟩ := by
  have hwrong : Wrong ⟨.expr (.super ref keyword method), ns⟩ ↔ s.classes ≠ .derived := by
    rw [h.classes, ne_eq, classContextIn_eq_derived]
    constructor
    · rintro (⟨hnone⟩ | ⟨hsome, hbase⟩) ⟨d, hd, hderived⟩ <;> simp_all
    · intro hne
      cases hc : classAround ns with
      | none => exact .superOutsideClass hc
      | some d =>
        cases hs : d.superclass with
        | none => exact .superWithoutSuperclass hc hs
        | some parent => exact absurd ⟨d, hc, by rw [hs]; rfl⟩ hne
  rw [faultless_iff, hwrong]
  show Quiet s (s.checkSuper keyword) ↔ _
  unfold State.checkSuper
  cases hc : s.classes with
  | none => simpa [Node.parts] using not_quiet_note s keyword .superOutsideClass
  | base => simpa [Node.parts] using not_quiet_note s keyword .superWithoutSuperclass
  | derived => simp [Node.parts]

end

mutual

/-- **The walk over an expression is quiet iff nothing in it is wrong.** -/
theorem quiet_walkExpr : ∀ (e : Expr) {s : State} {ns : List Node}, Sees ns s →
    (Quiet s (walkExpr e s) ↔ Place.Faultless ⟨.expr e, ns⟩)
  | .literal value, s, ns, h => by
    rw [faultless_of_parts (.expr (.literal value)) nofun]
    simp [Node.parts, walkExpr]
  | .group inner, s, ns, h => by
    rw [faultless_of_parts (.expr (.group inner)) nofun, Node.parts, List.forall_mem_singleton]
    exact quiet_walkExpr inner (h.inside _)
  | .unary op operand, s, ns, h => by
    rw [faultless_of_parts (.expr (.unary op operand)) nofun, Node.parts, List.forall_mem_singleton]
    exact quiet_walkExpr operand (h.inside _)
  | .binary left op right, s, ns, h => by
    rw [faultless_of_parts (.expr (.binary left op right)) nofun, Node.parts,
      List.forall_mem_cons, List.forall_mem_singleton,
      ← quiet_walkExpr left (h.inside _), ← quiet_walkExpr right ((h.walkExpr left).inside _)]
    exact quiet_trans_iff (advance_walkExpr left s).noted (advance_walkExpr right _).noted
  | .logical left op right, s, ns, h => by
    rw [faultless_of_parts (.expr (.logical left op right)) nofun, Node.parts,
      List.forall_mem_cons, List.forall_mem_singleton,
      ← quiet_walkExpr left (h.inside _), ← quiet_walkExpr right ((h.walkExpr left).inside _)]
    exact quiet_trans_iff (advance_walkExpr left s).noted (advance_walkExpr right _).noted
  | .var ref name, s, ns, h => quiet_var h ref name
  | .assign ref name value, s, ns, h => by
    rw [faultless_of_parts (.expr (.assign ref name value)) nofun, Node.parts,
      List.forall_mem_singleton]
    exact quiet_walkExpr value (h.inside _)
  | .call callee paren args, s, ns, h => by
    rw [faultless_of_parts (.expr (.call callee paren args)) nofun, Node.parts,
      List.forall_mem_cons, List.forall_mem_map,
      ← quiet_walkExpr callee (h.inside _), ← quiet_walkExprs args ((h.walkExpr callee).inside _)]
    exact quiet_trans_iff (advance_walkExpr callee s).noted (advance_walkExprs args _).noted
  | .get object name, s, ns, h => by
    rw [faultless_of_parts (.expr (.get object name)) nofun, Node.parts, List.forall_mem_singleton]
    exact quiet_walkExpr object (h.inside _)
  | .set object name value, s, ns, h => by
    rw [faultless_of_parts (.expr (.set object name value)) nofun, Node.parts,
      List.forall_mem_cons, List.forall_mem_singleton,
      ← quiet_walkExpr value (h.inside _), ← quiet_walkExpr object ((h.walkExpr value).inside _),
      and_comm]
    exact quiet_trans_iff (advance_walkExpr value s).noted (advance_walkExpr object _).noted
  | .this ref keyword, s, ns, h => quiet_this h ref keyword
  | .super ref keyword method, s, ns, h => quiet_super h ref keyword method

theorem quiet_walkExprs : ∀ (es : List Expr) {s : State} {ns : List Node}, Sees ns s →
    (Quiet s (walkExprs es s) ↔ ∀ e ∈ es, Place.Faultless ⟨.expr e, ns⟩)
  | [], s, ns, h => by simp [walkExprs]
  | e :: es, s, ns, h => by
    rw [List.forall_mem_cons, ← quiet_walkExpr e h, ← quiet_walkExprs es (h.walkExpr e)]
    exact quiet_trans_iff (advance_walkExpr e s).noted (advance_walkExprs es _).noted

end

/-! ## Statements -/

/-- **The state of the walk reflects what is around a statement.** -/
structure Reflects (ns : List Node) (s : State) : Prop where
  function : s.function = functionContextIn ns
  classes : s.classes = classContextIn ns
  nested : s.scopes ≠ [] ↔ ns.any Node.isScope = true
  initializer : NoInitializer ns
  readable (x : String) : s.found x ≠ some false

section
variable {s t : State} {ns : List Node} {names : List String}

namespace Reflects

/-- A statement leaves a state that reflects the same. -/
theorem after (h : Reflects ns s) (ht : Adds s names t) : Reflects ns t := by
  refine ⟨ht.advance.function.trans h.function, ht.advance.classes.trans h.classes, ?_, h.initializer,
    fun x => ?_⟩
  · rw [ne_eq, ht.advance.nested]
    exact h.nested
  · rw [ht.found]
    split_ifs
    · simp
    · exact h.readable x

/-- So does going into a node that is neither a scope nor a class. -/
theorem inside (h : Reflects ns s) {n : Node} (hscope : n.isScope = false)
    (hfunction : n.isFunction = false) (hclass : n.class? = none) (hn : n.isVariable = false) :
    Reflects (n :: ns) s := by
  refine ⟨h.function.trans (functionContextIn_cons hfunction).symm,
    h.classes.trans (classContextIn_cons hclass).symm, ?_, h.initializer.cons hn, h.readable⟩
  rw [List.any_cons, hscope, Bool.false_or]
  exact h.nested

/-- An expression in the statement sees what is around. -/
theorem sees (h : Reflects ns s) : Sees ns s := by
  refine ⟨h.classes, fun x => ?_⟩
  rw [isUnreadable_iff_found]
  exact iff_of_false (h.readable x) (h.initializer.not_initializes x)

/-- **In an initializer exactly the variable that is declared cannot be read.** -/
theorem sees_init (h : Reflects ns s) {name : Token} (init : Option Expr)
    (hnew : s.found name.lexeme = none) :
    Sees (.stmt (.declare name init) :: ns) (s.declare name) := by
  refine ⟨?_, fun x => ?_⟩
  · rw [(Advance.declare s name).classes, classContextIn_cons rfl]
    exact h.classes
  · rw [isUnreadable_iff_found, found_declare hnew, h.initializer.initializes_declare, ← h.nested]
    split_ifs with hx
    · exact iff_of_true rfl ⟨hx.2, hx.1⟩
    · exact iff_of_false (h.readable x) fun hx' => hx ⟨hx'.2, hx'.1⟩

/-- A new scope, in a node that has one. -/
theorem enter {n : Node} (hscope : n.isScope = true) (hinit : NoInitializer (n :: ns))
    (hfunction : s.function = functionContextIn (n :: ns))
    (hclasses : s.classes = classContextIn (n :: ns)) : Reflects (n :: ns) (s.enter []) := by
  refine ⟨hfunction, hclasses, ?_, hinit, fun x => ?_⟩
  · simp [State.enter, hscope]
  · simp [State.found, State.enter]

end Reflects

theorem reflects_start : Reflects [] {} :=
  ⟨rfl, rfl, by simp, nofun, fun _ => by simp [State.found]⟩

/-- In a new scope names are new iff they differ. -/
theorem mayDeclare_enter (s : State) (names : List String) :
    (s.enter []).MayDeclare names ↔ names.Nodup := by
  simp [State.MayDeclare, State.enter, State.found]

/-- A `return` is quiet unless it stands in no function or in a constructor. -/
theorem quiet_checkReturn (h : Reflects ns s) (keyword : Token) (value : Option Expr) :
    Quiet s (s.checkReturn keyword value.isSome) ↔ ¬ Wrong ⟨.stmt (.ret keyword value), ns⟩ := by
  have hfunction := h.function
  unfold State.checkReturn
  unfold functionContextIn at hfunction
  cases hf : functionAround ns with
  | none =>
    rw [hf] at hfunction
    rw [hfunction]
    exact iff_of_false (not_quiet_note _ _ _) fun hn => hn (.topLevelReturn hf)
  | some n =>
    have honly : Wrong ⟨.stmt (.ret keyword value), ns⟩ →
        ∃ d, n = .method d ∧ d.name.lexeme = constructorName := by
      rintro (⟨h⟩ | ⟨h, hd⟩)
      · rw [hf] at h
        cases h
      · rw [hf] at h
        exact ⟨_, Option.some.inj h, hd⟩
    rw [hf] at hfunction
    cases n with
    | method d =>
      rw [hfunction]
      dsimp only [methodContext]
      by_cases hd : d.name.lexeme = constructorName
      · rw [if_pos (by simpa using hd)]
        exact iff_of_false (not_quiet_note _ _ _) fun hn => hn (.constructorReturn hf hd)
      · rw [if_neg (by simpa using hd)]
        refine iff_of_true rfl fun hw => ?_
        obtain ⟨_, ⟨⟩, hd'⟩ := honly hw
        exact hd hd'
    | _ =>
      rw [hfunction]
      refine iff_of_true rfl fun hw => ?_
      obtain ⟨_, ⟨⟩, -⟩ := honly hw

end

theorem Adds.of_scopes {s t u : State} {names : List String} (h : Adds s names t)
    (hu : Advance s u) (hscopes : u.scopes = t.scopes) : Adds s names u :=
  ⟨hu, fun x => (found_of_scopes hscopes x).trans (h.found x)⟩

theorem adds_walkExpr (e : Expr) (s : State) : Adds s [] (walkExpr e s) :=
  .same (advance_walkExpr e s) (scopes_walkExpr e s)

theorem adds_checkReturn (s : State) (keyword : Token) (hasValue : Bool) :
    Adds s [] (s.checkReturn keyword hasValue) :=
  .same (.checkReturn s keyword hasValue) (scopes_checkReturn s keyword hasValue)

/-- **What a statement leaves in the innermost scope.** -/
theorem adds_walkStmt : ∀ (st : Stmt) (s : State), Adds s st.names (walkStmt st s)
  | .expr e, s => adds_walkExpr e s
  | .declare name none, s => .introduce s name
  | .declare name (some init), s => by
    refine (Adds.introduce s name).of_scopes (advance_walkStmt (.declare name (some init)) s) ?_
    simp only [walkStmt, introduce, State.define, State.add, scopes_walkExpr]
    split
    · exact scopes_walkExpr init _
    · rfl
  | .block body, s =>
    .same (advance_walkStmt (.block body) s) (advance_walkStmts body (s.enter [])).leave.2
  | .branch cond thenDo none, s =>
    (adds_walkExpr cond s).trans (adds_walkStmt thenDo _)
  | .branch cond thenDo (some elseDo), s =>
    ((adds_walkExpr cond s).trans
      (adds_walkStmt thenDo _)).trans (adds_walkStmt elseDo _)
  | .loop cond body, s =>
    (adds_walkExpr cond s).trans (adds_walkStmt body _)
  | .function ⟨name, params, body⟩, s =>
    (Adds.introduce s name).of_scopes (advance_walkStmt (.function ⟨name, params, body⟩) s)
      (advance_walkFunction .function ⟨name, params, body⟩ _).2
  | .ret keyword none, s => adds_checkReturn s keyword false
  | .ret keyword (some value), s => (adds_checkReturn s keyword true).trans (adds_walkExpr value _)
  | .classDecl ⟨name, superclass, interface, methods⟩, s =>
    (Adds.introduce s name).of_scopes (advance_walkClass _ s).1 (advance_walkClass _ s).2

/-- The class itself is walked over quietly iff its name is new and not that of its superclass. -/
theorem quiet_enterClass (name : Token) (superclass : Option Superclass) (s : State) :
    Quiet s (enterClass name superclass s) ↔
      (∀ parent ∈ superclass, parent.name.lexeme ≠ name.lexeme) ∧ s.MayDeclare [name.lexeme] := by
  have hbase : Quiet s ({ s with classes := .base }.introduce name) ↔ s.MayDeclare [name.lexeme] :=
    quiet_introduce { s with classes := .base } name
  cases superclass with
  | none => simpa [enterClass, Quiet, State.enter] using hbase
  | some parent =>
    by_cases hname : parent.name.lexeme = name.lexeme
    · refine iff_of_false (fun hq => ?_) fun h => h.1 parent rfl hname
      have hintroduce := (Advance.introduce { s with classes := .base } name).noted
      have hnote : Quiet s
          (({ s with classes := .base }.introduce name).note parent.name .inheritsFromItself) := by
        simpa [enterClass, Quiet, State.enter, State.bind, hname] using hq
      have hnoted : Noted s ({ s with classes := .base }.introduce name) :=
        ⟨hintroduce.bindings, hintroduce.errors⟩
      exact not_quiet_note _ _ _ ((quiet_trans_iff hnoted (Advance.note _ _ _).noted).mp hnote).2
    · simpa [enterClass, Quiet, State.enter, State.bind, hname] using hbase

mutual

/-- **The walk over a statement is quiet iff nothing in it is wrong and the names it declares are
new in the innermost scope.** -/
theorem quiet_walkStmt : ∀ (st : Stmt) {s : State} {ns : List Node}, Reflects ns s →
    (Quiet s (walkStmt st s) ↔ Place.Faultless ⟨.stmt st, ns⟩ ∧ s.MayDeclare st.names)
  | .expr e, s, ns, h => by
    rw [faultless_of_parts (.stmt (.expr e)) nofun, Node.parts, List.forall_mem_singleton,
      ← quiet_walkExpr e (h.inside rfl rfl rfl rfl).sees]
    exact (and_iff_left (mayDeclare_nil s)).symm
  | .declare name none, s, ns, h => by
    rw [faultless_of_parts (.stmt (.declare name none)) nofun]
    exact (quiet_introduce s name).trans (and_iff_right nofun).symm
  | .declare name (some init), s, ns, h => by
    have hinit := advance_walkExpr init (s.declare name)
    have hwalk : Quiet s (walkExpr init (s.declare name)) ↔
        s.MayDeclare [name.lexeme] ∧ Quiet (s.declare name) (walkExpr init (s.declare name)) := by
      rw [quiet_trans_iff (Advance.declare s name).noted hinit.noted, quiet_declare,
        mayDeclare_singleton]
    have hdefine : Quiet s (walkStmt (.declare name (some init)) s) ↔
        Quiet s (walkExpr init (s.declare name)) :=
      (quiet_trans_iff ((Advance.declare s name).noted.trans hinit.noted)
        (Advance.add _ _ _).noted).trans (and_iff_left (quiet_define _ name))
    rw [faultless_of_parts (.stmt (.declare name (some init))) nofun, Node.parts, Option.toList,
      List.map_singleton, List.forall_mem_singleton, hdefine, hwalk, and_comm]
    -- A name that is declared already stays readable, but then its declaration is not quiet.
    refine and_congr_left fun hnew => ?_
    exact quiet_walkExpr init (h.sees_init (some init) ((mayDeclare_singleton s _).mp hnew))
  | .block body, s, ns, h => by
    have hbody : Reflects (.stmt (.block body) :: ns) (s.enter []) :=
      .enter rfl (h.initializer.cons rfl) (h.function.trans (functionContextIn_cons rfl).symm)
        (h.classes.trans (classContextIn_cons rfl).symm)
    rw [faultless_block, ← mayDeclare_enter s, ← quiet_walkStmts body hbody]
    exact (and_iff_left (mayDeclare_nil s)).symm
  | .branch cond thenDo none, s, ns, h => by
    have hin : Reflects (.stmt (.branch cond thenDo none) :: ns) s := h.inside rfl rfl rfl rfl
    have hcond := adds_walkExpr cond s
    rw [faultless_of_parts (.stmt (.branch cond thenDo none)) nofun, Node.parts, Option.toList,
      List.map_nil, List.forall_mem_cons, List.forall_mem_singleton, ← quiet_walkExpr cond hin.sees,
      and_assoc, Stmt.names, ← hcond.mayDeclare, ← quiet_walkStmt thenDo (hin.after hcond)]
    exact quiet_trans_iff hcond.advance.noted (advance_walkStmt thenDo _).noted
  | .branch cond thenDo (some elseDo), s, ns, h => by
    have hin : Reflects (.stmt (.branch cond thenDo (some elseDo)) :: ns) s :=
      h.inside rfl rfl rfl rfl
    have hcond := adds_walkExpr cond s
    have hthen := adds_walkStmt thenDo (walkExpr cond s)
    rw [faultless_of_parts (.stmt (.branch cond thenDo (some elseDo))) nofun, Node.parts,
      Option.toList, List.map_singleton, List.forall_mem_cons, List.forall_mem_cons,
      List.forall_mem_singleton, ← quiet_walkExpr cond hin.sees, Stmt.names, ← hcond.mayDeclare,
      hthen.mayDeclare_append]
    have helse := quiet_trans_iff hthen.advance.noted (advance_walkStmt elseDo _).noted
    rw [quiet_walkStmt thenDo (hin.after hcond),
      quiet_walkStmt elseDo ((hin.after hcond).after hthen), and_and_and_comm] at helse
    rw [and_assoc, ← helse]
    exact quiet_trans_iff hcond.advance.noted
      (hthen.advance.trans (advance_walkStmt elseDo _)).noted
  | .loop cond body, s, ns, h => by
    have hin : Reflects (.stmt (.loop cond body) :: ns) s := h.inside rfl rfl rfl rfl
    have hcond := adds_walkExpr cond s
    rw [faultless_of_parts (.stmt (.loop cond body)) nofun, Node.parts, List.forall_mem_cons,
      List.forall_mem_singleton, ← quiet_walkExpr cond hin.sees, and_assoc, Stmt.names,
      ← hcond.mayDeclare, ← quiet_walkStmt body (hin.after hcond)]
    exact quiet_trans_iff hcond.advance.noted (advance_walkStmt body _).noted
  | .function ⟨name, params, body⟩, s, ns, h => by
    have hname := Adds.introduce s name
    have hclasses : (s.introduce name).classes =
        classContextIn (.stmt (.function ⟨name, params, body⟩) :: ns) :=
      (hname.advance.classes.trans h.classes).trans (classContextIn_cons rfl).symm
    rw [faultless_function, ← quiet_walkFunction .function ⟨name, params, body⟩ rfl
      (h.initializer.cons rfl) rfl hclasses, Stmt.names, ← quiet_introduce, and_comm]
    exact quiet_trans_iff hname.advance.noted (advance_walkFunction .function _ _).1.noted
  | .ret keyword none, s, ns, h => by
    rw [faultless_iff, ← quiet_checkReturn h keyword none]
    exact ((and_iff_left (mayDeclare_nil s)).trans (and_iff_left nofun)).symm
  | .ret keyword (some value), s, ns, h => by
    have hcheck := adds_checkReturn s keyword true
    have hin : Reflects (.stmt (.ret keyword (some value)) :: ns) (s.checkReturn keyword true) :=
      (h.after hcheck).inside rfl rfl rfl rfl
    rw [faultless_iff, ← quiet_checkReturn h keyword (some value), Node.parts, Option.toList,
      List.map_singleton, List.forall_mem_singleton, ← quiet_walkExpr value hin.sees]
    exact (quiet_trans_iff hcheck.advance.noted (advance_walkExpr value _).noted).trans
      (and_iff_left (mayDeclare_nil s)).symm
  | .classDecl ⟨name, superclass, interface, methods⟩, s, ns, h => by
    have hclasses : (enterClass name superclass s).classes =
        classContextIn (.stmt (.classDecl ⟨name, superclass, interface, methods⟩) :: ns) :=
      (enterClass_context name superclass s).1
    have hwalk := quiet_trans_iff (noted_enterClass name superclass s)
      (advance_walkMethods methods (enterClass name superclass s)).1.noted
    have hleave : Quiet s (walkStmt (.classDecl ⟨name, superclass, interface, methods⟩) s) ↔
        Quiet s (walkMethods methods (enterClass name superclass s)) := by
      cases superclass <;> rfl
    rw [faultless_class, ← quiet_walkMethods methods (h.initializer.cons rfl) hclasses, hleave, hwalk,
      quiet_enterClass, Stmt.names]
    exact and_right_comm

/-- So is the walk over a function, in which the parameters and the body share a scope. -/
theorem quiet_walkFunction (context : FunctionContext) : ∀ (d : FunctionDecl) {s : State}
    {n : Node} {ns : List Node}, n.isScope = true → NoInitializer (n :: ns) →
    context = functionContextIn (n :: ns) → s.classes = classContextIn (n :: ns) →
    (Quiet s (walkFunction context d s) ↔
      (∀ st ∈ d.body, Place.Faultless ⟨.stmt st, n :: ns⟩) ∧ d.names.Nodup)
  | ⟨name, params, body⟩, s, n, ns, hscope, hinit, hfunction, hclasses => by
    have hstart : Reflects (n :: ns) ({ s with function := context }.enter []) :=
      .enter hscope hinit hfunction hclasses
    have hparams := Adds.introduceAll params ({ s with function := context }.enter [])
    have hwalk := quiet_trans_iff hparams.advance.noted (advance_walkStmts body _).noted
    rw [quiet_introduceAll, quiet_walkStmts body (hstart.after hparams), and_left_comm,
      ← hparams.mayDeclare_append, mayDeclare_enter] at hwalk
    exact hwalk

theorem quiet_walkMethods : ∀ (ds : List FunctionDecl) {s : State} {ns : List Node},
    NoInitializer ns → s.classes = classContextIn ns →
    (Quiet s (walkMethods ds s) ↔ ∀ d ∈ ds, Place.Faultless ⟨.method d, ns⟩)
  | [], s, ns, _, _ => by simp [walkMethods]
  | d :: ds, s, ns, hinit, hclasses => by
    have hd := advance_walkFunction (methodContext d.name) d s
    rw [List.forall_mem_cons, faultless_method, ← quiet_walkFunction (methodContext d.name) d rfl
      (hinit.cons rfl) rfl (hclasses.trans (classContextIn_cons rfl).symm),
      ← quiet_walkMethods ds hinit (hd.1.classes.trans hclasses)]
    exact quiet_trans_iff hd.1.noted (advance_walkMethods ds _).1.noted

theorem quiet_walkStmts : ∀ (ss : List Stmt) {s : State} {ns : List Node}, Reflects ns s →
    (Quiet s (walkStmts ss s) ↔
      (∀ st ∈ ss, Place.Faultless ⟨.stmt st, ns⟩) ∧ s.MayDeclare (Stmt.namesAll ss))
  | [], s, ns, h => iff_of_true rfl ⟨nofun, mayDeclare_nil s⟩
  | st :: ss, s, ns, h => by
    have hst := adds_walkStmt st s
    have hwalk := quiet_trans_iff hst.advance.noted (advance_walkStmts ss (walkStmt st s)).noted
    rw [Stmt.namesAll_cons, hst.mayDeclare_append, List.forall_mem_cons]
    rw [quiet_walkStmt st h, quiet_walkStmts ss (h.after hst)] at hwalk
    exact hwalk.trans and_and_and_comm

end

/-- **The walk over a program reports an error iff the program is ill-formed.** -/
theorem rejects_iff_illFormed (program : List Stmt) :
    (resolve program).errors ≠ #[] ↔ IllFormed program := by
  have hquiet : (resolve program).errors = #[] ↔ ¬ IllFormed program := by
    rw [not_illFormed_iff]
    exact (quiet_walkStmts program reflects_start).trans (and_iff_left fun h => absurd rfl h)
  rw [ne_eq, hquiet, not_not]

end Scriptlet.Scope
