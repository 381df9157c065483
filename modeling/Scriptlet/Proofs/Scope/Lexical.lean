import Scriptlet.Proofs.Scope.Rejection

/-!
# Lexical distance

Where a name is declared, said of the tree alone. On the way outwards from a reference one passes
`Layer`s: lists of statements of which some come before, declarations whose name is in reach of the
rest of them, and the constructs that open a scope. A layer that opens no scope declares its names in
the scope around it. The *lexical distance* of a name is the number of scopes opened between the
reference and the innermost one that declares the name; there is none where only layers outside all
scopes declare it, or no layer does.

The walk carries a stack of scopes instead. That the stack `Mirrors` the layers holds where a reference
is met, whatever has been reported before: a name that is declared twice is in its scope all the same.

* `Layer`, `lexicalDistance`: what is around a reference, and where a name leads from there.
* `references`: the references of a program in the order of the walk, each with its layers.

Results:
* `lexicalDistance_eq_some`, `lexicalDistance_eq_none`: the distance counts the scopes that are opened
  inside the innermost declaration.
* `bindings_lexical`: **every reference is bound at its lexical distance.**
-/

namespace Scriptlet.Scope

open State

/-! ## Layers -/

/-- What is around a reference, one step outwards. -/
inductive Layer where
  /-- A list of statements, in which these come before. -/
  | after (before : List Stmt)
  /-- A declaration, whose name is in reach of the rest of it. -/
  | own (name : Token)
  | block
  | function (params : List Token)
  /-- The scope of a class for `this`. -/
  | this
  /-- The scope for `super` of a class with a superclass. -/
  | super

namespace Layer

/-- The names a layer declares. -/
def names : Layer → List String
  | after before => Stmt.namesAll before
  | own name => [name.lexeme]
  | block => []
  | function params => params.map (·.lexeme)
  | this => ["this"]
  | super => ["super"]

/-- The layer is a scope; what any other declares belongs to the scope around it. -/
def opens : Layer → Bool
  | after _ | own _ => false
  | block | function _ | this | super => true

def isThis : Layer → Bool
  | this => true
  | _ => false

/-- The layers of a class around its methods. -/
def ofClass : Option Superclass → List Layer
  | none => [this]
  | some _ => [this, super]

end Layer

/-- **How many scopes outwards the name is declared**, seen from inside the layers. -/
def lexicalDistance (x : String) : List Layer → Option Nat
  | [] => none
  | layer :: outer =>
    if x ∈ layer.names ∧ (layer :: outer).any Layer.opens = true then some 0
    else (lexicalDistance x outer).map (· + layer.opens.toNat)

section
variable {x : String} {layer : Layer} {layers : List Layer}

theorem lexicalDistance_inner (h : layer.opens = false) :
    lexicalDistance x (layer :: layers) =
      if x ∈ layer.names ∧ layers.any Layer.opens = true then some 0
      else lexicalDistance x layers := by
  simp [lexicalDistance, h]

theorem lexicalDistance_scope (h : layer.opens = true) :
    lexicalDistance x (layer :: layers) =
      if x ∈ layer.names then some 0 else (lexicalDistance x layers).map (· + 1) := by
  simp [lexicalDistance, h]

/-- Statements that come before may be looked at one after the other, the last one first. -/
theorem lexicalDistance_after (before : List Stmt) (st : Stmt) :
    lexicalDistance x (.after (before ++ [st]) :: layers) =
      lexicalDistance x (.after [st] :: .after before :: layers) := by
  have hnames : x ∈ (Layer.after (before ++ [st])).names ↔
      x ∈ (Layer.after before).names ∨ x ∈ (Layer.after [st]).names := by
    simp only [Layer.names, Stmt.namesAll, List.flatMap_append, List.mem_append]
  have hopens : (Layer.after before :: layers).any Layer.opens = layers.any Layer.opens := rfl
  rw [lexicalDistance_inner rfl, lexicalDistance_inner rfl, lexicalDistance_inner rfl, hopens]
  cases layers.any Layer.opens with
  | false => simp
  | true => by_cases hst : x ∈ (Layer.after [st]).names <;> simp [hnames, hst]

/-- **The distance is the number of scopes opened inside the innermost layer that declares the name**,
if that layer is a scope or in one. -/
theorem lexicalDistance_eq_some {n : Nat} :
    lexicalDistance x layers = some n ↔
      ∃ inner layer outer, layers = inner ++ layer :: outer ∧ (∀ l ∈ inner, x ∉ l.names) ∧
        x ∈ layer.names ∧ (layer :: outer).any Layer.opens = true ∧
        inner.countP Layer.opens = n := by
  induction layers generalizing n with
  | nil => simp [lexicalDistance]
  | cons l ls ih =>
    by_cases hdeclares : x ∈ l.names ∧ (l :: ls).any Layer.opens = true
    · rw [lexicalDistance, if_pos hdeclares]
      constructor
      · intro hn
        exact ⟨[], l, ls, rfl, nofun, hdeclares.1, hdeclares.2, Option.some.inj hn⟩
      · rintro ⟨inner, layer, outer, heq, hinner, hx, hopens, rfl⟩
        cases inner with
        | nil => rfl
        | cons m inner =>
          cases heq
          exact absurd hdeclares.1 (hinner l List.mem_cons_self)
    · rw [lexicalDistance, if_neg hdeclares, Option.map_eq_some_iff]
      constructor
      · rintro ⟨m, hm, rfl⟩
        obtain ⟨inner, layer, outer, rfl, hinner, hx, hopens, rfl⟩ := ih.mp hm
        have hl : x ∉ l.names := fun hl => hdeclares ⟨hl, by
          rw [List.any_cons, List.any_append, hopens, Bool.or_true, Bool.or_true]⟩
        refine ⟨l :: inner, layer, outer, rfl, List.forall_mem_cons.mpr ⟨hl, hinner⟩, hx, hopens, ?_⟩
        cases hl : l.opens <;> simp [hl]
      · rintro ⟨inner, layer, outer, heq, hinner, hx, hopens, rfl⟩
        cases inner with
        | nil =>
          cases heq
          exact absurd ⟨hx, hopens⟩ hdeclares
        | cons m inner =>
          cases heq
          refine ⟨_, ih.mpr ⟨inner, layer, outer, rfl, (List.forall_mem_cons.mp hinner).2, hx, hopens,
            rfl⟩, ?_⟩
          cases hl : l.opens <;> simp [hl]

/-- **There is none iff every layer that declares the name is outside all scopes.** -/
theorem lexicalDistance_eq_none :
    lexicalDistance x layers = none ↔
      ∀ inner layer outer, layers = inner ++ layer :: outer → x ∈ layer.names →
        (layer :: outer).any Layer.opens = false := by
  induction layers with
  | nil => simp [lexicalDistance]
  | cons l ls ih =>
    have hstep : lexicalDistance x (l :: ls) = none ↔
        ¬ (x ∈ l.names ∧ (l :: ls).any Layer.opens = true) ∧ lexicalDistance x ls = none := by
      rw [lexicalDistance]
      split_ifs with hdeclares
      · exact iff_of_false nofun fun h => h.1 hdeclares
      · rw [Option.map_eq_none_iff, and_iff_right hdeclares]
    rw [hstep, ih]
    constructor
    · rintro ⟨hl, hls⟩ inner layer outer heq hx
      cases inner with
      | nil =>
        cases heq
        exact Bool.eq_false_iff.mpr fun hopens => hl ⟨hx, hopens⟩
      | cons m inner => exact hls inner layer outer (List.cons.inj heq).2 hx
    · intro h
      refine ⟨fun ⟨hx, hopens⟩ => ?_, fun inner layer outer heq => h (l :: inner) layer outer ?_⟩
      · exact absurd (h [] l ls rfl hx) (Bool.not_eq_false _ ▸ hopens)
      · rw [heq, List.cons_append]

end

/-! ## References -/

/-- A reference to a name, with the layers around it, innermost first. -/
structure Reference where
  ref : RefId
  name : Token
  around : List Layer

/-- Where a reference leads by what is around it. -/
def Reference.binding (r : Reference) : Binding :=
  ⟨r.ref, r.name.lexeme, lexicalDistance r.name.lexeme r.around⟩

mutual

/-- The references in an expression. Outside all classes, `this` is none. -/
def exprReferences (around : List Layer) : Expr → List Reference
  | .literal _ => []
  | .group inner => exprReferences around inner
  | .unary _ operand => exprReferences around operand
  | .binary left _ right => exprReferences around left ++ exprReferences around right
  | .logical left _ right => exprReferences around left ++ exprReferences around right
  | .var ref name => [⟨ref, name, around⟩]
  | .assign ref name value => exprReferences around value ++ [⟨ref, name, around⟩]
  | .call callee _ args => exprReferences around callee ++ exprsReferences around args
  | .get object _ => exprReferences around object
  | .set object _ value => exprReferences around value ++ exprReferences around object
  | .this ref keyword => if around.any Layer.isThis then [⟨ref, keyword, around⟩] else []
  | .super ref keyword _ => [⟨ref, keyword, around⟩]
termination_by structural e => e

def exprsReferences (around : List Layer) : List Expr → List Reference
  | [] => []
  | e :: es => exprReferences around e ++ exprsReferences around es
termination_by structural es => es

end

mutual

/-- The references in a statement. -/
def stmtReferences (around : List Layer) : Stmt → List Reference
  | .expr e => exprReferences around e
  | .declare _ none => []
  | .declare name (some init) => exprReferences (.own name :: around) init
  | .block body => stmtsReferences (.block :: around) [] body
  | .branch cond thenDo none => exprReferences around cond ++ stmtReferences around thenDo
  | .branch cond thenDo (some elseDo) =>
    exprReferences around cond ++ stmtReferences around thenDo ++
      stmtReferences (.after [thenDo] :: around) elseDo
  | .loop cond body => exprReferences around cond ++ stmtReferences around body
  | .function decl => functionReferences (.own decl.name :: around) decl
  | .ret _ none => []
  | .ret _ (some value) => exprReferences around value
  | .classDecl decl => classReferences around decl
termination_by structural st => st

def functionReferences (around : List Layer) : FunctionDecl → List Reference
  | ⟨_, params, body⟩ => stmtsReferences (.function params :: around) [] body
termination_by structural decl => decl

def classReferences (around : List Layer) : ClassDecl → List Reference
  | ⟨name, superclass, _, methods⟩ =>
    superclass.toList.map (fun parent => ⟨parent.ref, parent.name, .own name :: around⟩) ++
      methodsReferences (Layer.ofClass superclass ++ .own name :: around) methods
termination_by structural decl => decl

def methodsReferences (around : List Layer) : List FunctionDecl → List Reference
  | [] => []
  | method :: methods => functionReferences around method ++ methodsReferences around methods
termination_by structural methods => methods

/-- The references in statements that stand in one list after those `before`. -/
def stmtsReferences (around : List Layer) (before : List Stmt) : List Stmt → List Reference
  | [] => []
  | st :: ss =>
    stmtReferences (.after before :: around) st ++ stmtsReferences around (before ++ [st]) ss
termination_by structural ss => ss

end

/-- **The references of a program**, in the order in which the walk meets them. -/
def references (program : List Stmt) : List Reference := stmtsReferences [] [] program

/-! ## What is in reach -/

/-- The innermost scope decides, and else the scopes around it. -/
theorem distanceIn_found (s : State) (x : String) :
    distanceIn s.scopes x =
      if (s.found x).isSome then some 0 else (distanceIn s.scopes.tail x).map (· + 1) := by
  cases hs : s.scopes with
  | nil => simp [State.found, hs, distanceIn]
  | cons scope rest =>
    rw [distanceIn_cons]
    simp [State.found, hs]

/-- **The state of the walk mirrors the layers around a reference.** -/
structure Mirrors (around : List Layer) (s : State) : Prop where
  distance (x : String) : distanceIn s.scopes x = lexicalDistance x around
  nested : s.scopes ≠ [] ↔ around.any Layer.opens = true
  classes : s.classes ≠ .none ↔ around.any Layer.isThis = true

namespace Mirrors

variable {around : List Layer} {s t : State}

theorem initial : Mirrors [] {} := ⟨fun _ => rfl, by simp, by simp⟩

theorem same (h : Mirrors around s) (hscopes : t.scopes = s.scopes) (hclasses : t.classes = s.classes) :
    Mirrors around t := by
  obtain ⟨hdistance, hnested, hclass⟩ := h
  exact ⟨by rwa [hscopes], by rwa [hscopes], by rwa [hclasses]⟩

/-- At the beginning of a list nothing comes before. -/
theorem nothing (h : Mirrors around s) : Mirrors (.after [] :: around) s :=
  ⟨fun x => by rw [lexicalDistance_inner rfl, h.distance]; simp [Layer.names, Stmt.namesAll],
    h.nested, h.classes⟩

theorem walkExpr (h : Mirrors around s) (e : Expr) : Mirrors around (walkExpr e s) :=
  h.same (scopes_walkExpr e s) (advance_walkExpr e s).classes

/-- Names are added to the innermost scope. -/
theorem declaring (h : Mirrors around s) {layer : Layer} (hopens : layer.opens = false)
    (hadvance : Advance s t) (hfound : ∀ x, (t.found x).isSome = true ↔
      (s.scopes ≠ [] ∧ x ∈ layer.names) ∨ (s.found x).isSome = true) :
    Mirrors (layer :: around) t where
  distance x := by
    rw [lexicalDistance_inner hopens, ← h.distance, distanceIn_found, hadvance.scopes.tail]
    by_cases hx : x ∈ layer.names ∧ around.any Layer.opens = true
    · rw [if_pos ((hfound x).mpr (.inl ⟨h.nested.mpr hx.2, hx.1⟩)), if_pos hx]
    · have hsame : (t.found x).isSome = (s.found x).isSome := by
        rw [Bool.eq_iff_iff, hfound]
        exact or_iff_right fun ⟨hs, hx'⟩ => hx ⟨hx', h.nested.mp hs⟩
      rw [if_neg hx, hsame, ← distanceIn_found]
  nested := by
    rw [List.any_cons, hopens, Bool.false_or, ← h.nested, ne_eq, hadvance.nested]
  classes := by
    have hthis : layer.isThis = false := by cases layer <;> first | rfl | cases hopens
    rw [List.any_cons, hthis, Bool.false_or, ← h.classes, hadvance.classes]

theorem adding (h : Mirrors around s) {layer : Layer} (hopens : layer.opens = false)
    (hadds : Adds s layer.names t) : Mirrors (layer :: around) t := by
  refine h.declaring hopens hadds.advance fun x => ?_
  rw [hadds.found]
  split_ifs with hx
  · simp [hx]
  · exact (or_iff_right hx).symm

theorem introduce (h : Mirrors around s) (name : Token) :
    Mirrors (.own name :: around) (s.introduce name) := h.adding rfl (.introduce s name)

theorem declare (h : Mirrors around s) (name : Token) :
    Mirrors (.own name :: around) (s.declare name) := by
  refine h.declaring rfl (.declare s name) fun x => ?_
  rcases declare_cases s name with ⟨hs, hs'⟩ | ⟨scope, scope', rest, hs, hs', hother, hname, -⟩
  · simp [State.found, hs, hs']
  · by_cases hx : x = name.lexeme
    · subst hx
      simp [State.found, hs, hs', hname, Layer.names]
    · simp [State.found, hs, hs', hother x hx, Layer.names, hx]

/-- A scope has been entered, and names have been added to it. -/
theorem opening (h : Mirrors around s) {layer : Layer} (hopens : layer.opens = true)
    (htail : t.scopes.tail = s.scopes) (hne : t.scopes ≠ [])
    (hfound : ∀ x, (t.found x).isSome = true ↔ x ∈ layer.names)
    (hclasses : t.classes ≠ .none ↔ layer.isThis = true ∨ s.classes ≠ .none) :
    Mirrors (layer :: around) t where
  distance x := by
    rw [lexicalDistance_scope hopens, ← h.distance, distanceIn_found, htail]
    simp only [hfound]
  nested := by simpa [hopens] using hne
  classes := by rw [List.any_cons, Bool.or_eq_true, hclasses, h.classes]

theorem block (h : Mirrors around s) : Mirrors (.block :: around) (s.enter []) :=
  h.opening rfl rfl (List.cons_ne_nil _ _) (by simp [State.found, enter, Layer.names])
    (by simp [enter, Layer.isThis])

theorem function (h : Mirrors around s) (context : FunctionContext) (params : List Token) :
    Mirrors (.function params :: around)
      (params.foldl State.introduce ({ s with function := context }.enter [])) := by
  have hadds := Adds.introduceAll params ({ s with function := context }.enter [])
  refine h.opening rfl hadds.advance.scopes.tail ?_ (fun x => ?_) ?_
  · rw [ne_eq, hadds.advance.nested]
    exact List.cons_ne_nil _ _
  · rw [hadds.found]
    by_cases hx : x ∈ params.map (·.lexeme) <;> simp [hx, enter, State.found, Layer.names]
  · rw [hadds.advance.classes]
    simp [enter, Layer.isThis]

theorem enterClass (h : Mirrors around s) (name : Token) (superclass : Option Superclass) :
    Mirrors (Layer.ofClass superclass ++ .own name :: around) (enterClass name superclass s) := by
  have hname := h.introduce name
  have hscopes := scopes_enterClass name superclass s
  have hclasses := (enterClass_context name superclass s).1
  have hkeyword (u : State) (word : String) (hu : u.scopes.head? = some [(word, true)]) (x : String) :
      (u.found x).isSome = true ↔ x ∈ [word] := by
    rw [State.found, hu, Option.bind_some, lookup_cons]
    split_ifs with hx <;> simp [hx]
  cases superclass with
  | none =>
    refine hname.opening rfl ?_ ?_ (hkeyword _ "this" ?_) ?_
    · rw [hscopes]
      rfl
    · rw [hscopes]
      exact List.cons_ne_nil _ _
    · rw [hscopes]
      rfl
    · simp [hclasses, classContext, Layer.isThis]
  | some parent =>
    have hsuper : Mirrors (.super :: .own name :: around)
        ((s.introduce name).enter [("super", true)]) :=
      hname.opening rfl rfl (List.cons_ne_nil _ _) (hkeyword _ "super" rfl)
        (by simp [enter, Layer.isThis])
    refine hsuper.opening rfl ?_ ?_ (hkeyword _ "this" ?_) ?_
    · rw [hscopes]
      rfl
    · rw [hscopes]
      exact List.cons_ne_nil _ _
    · rw [hscopes]
      rfl
    · simp [hclasses, classContext, Layer.isThis]

/-- Behind a statement of a list. -/
theorem behind {before : List Stmt} {st : Stmt} (h : Mirrors (.after before :: around) s)
    (hadds : Adds s st.names t) : Mirrors (.after (before ++ [st]) :: around) t := by
  have hlayer : Mirrors (.after [st] :: .after before :: around) t :=
    h.adding rfl (by simpa [Layer.names, Stmt.namesAll] using hadds)
  exact ⟨fun x => (hlayer.distance x).trans (lexicalDistance_after before st).symm,
    hlayer.nested, hlayer.classes⟩

end Mirrors

/-! ## Bindings -/

/-- **From `s` to `t` these references are bound**, each at its lexical distance. -/
def Records (s : State) (rs : List Reference) (t : State) : Prop :=
  t.bindings.toList = s.bindings.toList ++ rs.map Reference.binding

namespace Records

variable {s t u : State} {rs rs' : List Reference} {around : List Layer}

theorem none (h : t.bindings = s.bindings) : Records s [] t := by
  rw [Records, h, List.map_nil, List.append_nil]

theorem trans (h : Records s rs t) (h' : Records t rs' u) : Records s (rs ++ rs') u := by
  rw [Records, h', h, List.map_append, List.append_assoc]

theorem from_eq (h : Records t rs u) (hs : t.bindings = s.bindings) : Records s rs u := by
  rwa [Records, ← hs]

theorem of_eq (h : Records s rs t) (hu : u.bindings = t.bindings) : Records s rs u := by
  rwa [Records, hu]

theorem bind (h : Mirrors around s) (hscopes : t.scopes = s.scopes) (ref : RefId) (name : Token) :
    Records t [⟨ref, name, around⟩] (t.bind ref name) := by
  have hdistance : t.distance? name.lexeme = lexicalDistance name.lexeme around := by
    rw [← h.distance, ← hscopes]
    rfl
  simp [Records, State.bind, Reference.binding, hdistance]

end Records

mutual

theorem records_walkExpr : ∀ (e : Expr) {around : List Layer} {s : State}, Mirrors around s →
    Records s (exprReferences around e) (walkExpr e s)
  | .literal _, _, _, _ => .none rfl
  | .group inner, _, _, h => records_walkExpr inner h
  | .unary _ operand, _, _, h => records_walkExpr operand h
  | .binary left _ right, _, _, h =>
    (records_walkExpr left h).trans (records_walkExpr right (h.walkExpr left))
  | .logical left _ right, _, _, h =>
    (records_walkExpr left h).trans (records_walkExpr right (h.walkExpr left))
  | .var ref name, _, _, h => by
    unfold walkExpr
    split_ifs
    · exact (Records.bind h rfl ref name).from_eq rfl
    · exact .bind h rfl ref name
  | .assign ref name value, _, _, h =>
    (records_walkExpr value h).trans (.bind (h.walkExpr value) rfl ref name)
  | .call callee _ args, _, _, h =>
    (records_walkExpr callee h).trans (records_walkExprs args (h.walkExpr callee))
  | .get object _, _, _, h => records_walkExpr object h
  | .set object _ value, _, _, h =>
    (records_walkExpr value h).trans (records_walkExpr object (h.walkExpr value))
  | .this ref keyword, _, s, h => by
    unfold walkExpr exprReferences
    by_cases hclasses : s.classes = .none
    · rw [if_pos hclasses, if_neg fun hthis => h.classes.mpr hthis hclasses]
      exact .none rfl
    · rw [if_neg hclasses, if_pos (h.classes.mp hclasses)]
      exact .bind h rfl ref keyword
  | .super ref keyword _, _, s, h =>
    (Records.bind h (scopes_checkSuper s keyword) ref keyword).from_eq (bindings_checkSuper s keyword)

theorem records_walkExprs : ∀ (es : List Expr) {around : List Layer} {s : State}, Mirrors around s →
    Records s (exprsReferences around es) (walkExprs es s)
  | [], _, _, _ => .none rfl
  | e :: es, _, _, h => (records_walkExpr e h).trans (records_walkExprs es (h.walkExpr e))

end

theorem records_enterClass {around : List Layer} {s : State} (h : Mirrors around s) (name : Token)
    (superclass : Option Superclass) :
    Records s (superclass.toList.map fun parent => ⟨parent.ref, parent.name, .own name :: around⟩)
      (enterClass name superclass s) := by
  have hbindings := bindings_introduce { s with classes := .base } name
  cases superclass with
  | none => exact .none hbindings
  | some parent =>
    have hscopes : ({ s with classes := .base }.introduce name).scopes = (s.introduce name).scopes :=
      (List.cons.inj (scopes_enterClass name .none s)).2
    have hbind {t : State} (ht : t.scopes = (s.introduce name).scopes) (hb : t.bindings = s.bindings) :
        Records s [⟨parent.ref, parent.name, .own name :: around⟩] (t.bind parent.ref parent.name) :=
      (Records.bind (h.introduce name) ht parent.ref parent.name).from_eq hb
    unfold enterClass
    dsimp only
    split_ifs
    · exact (hbind hscopes hbindings).of_eq rfl
    · exact (hbind hscopes hbindings).of_eq rfl

mutual

theorem records_walkStmt : ∀ (st : Stmt) {around : List Layer} {s : State}, Mirrors around s →
    Records s (stmtReferences around st) (walkStmt st s)
  | .expr e, _, _, h => records_walkExpr e h
  | .declare name none, _, s, _ => .none (bindings_introduce s name)
  | .declare name (some init), _, s, h =>
    ((records_walkExpr init (h.declare name)).from_eq (bindings_declare s name)).of_eq
      (bindings_add _ _ _)
  | .block body, _, _, h => records_walkStmts body h.block.nothing
  | .branch cond thenDo none, _, _, h =>
    (records_walkExpr cond h).trans (records_walkStmt thenDo (h.walkExpr cond))
  | .branch cond thenDo (some elseDo), _, _, h =>
    have hthen := h.walkExpr cond
    ((records_walkExpr cond h).trans (records_walkStmt thenDo hthen)).trans
      (records_walkStmt elseDo (hthen.nothing.behind (adds_walkStmt thenDo _)))
  | .loop cond body, _, _, h =>
    (records_walkExpr cond h).trans (records_walkStmt body (h.walkExpr cond))
  | .function decl, _, s, h =>
    (records_walkFunction .function decl (h.introduce decl.name)).from_eq
      (bindings_introduce s decl.name)
  | .ret keyword none, _, s, _ => .none (bindings_checkReturn s keyword false)
  | .ret keyword (some value), _, s, h =>
    (records_walkExpr value (h.same (scopes_checkReturn s keyword true)
      (Advance.checkReturn s keyword true).classes)).from_eq (bindings_checkReturn s keyword true)
  | .classDecl decl, _, _, h => records_walkClass decl h

theorem records_walkFunction (context : FunctionContext) : ∀ (decl : FunctionDecl)
    {around : List Layer} {s : State}, Mirrors around s →
    Records s (functionReferences around decl) (walkFunction context decl s)
  | ⟨_, params, body⟩, _, _, h =>
    (records_walkStmts body (h.function context params).nothing).from_eq
      (bindings_foldl_introduce params _)

theorem records_walkClass : ∀ (decl : ClassDecl) {around : List Layer} {s : State},
    Mirrors around s → Records s (classReferences around decl) (walkClass decl s)
  | ⟨name, superclass, _, methods⟩, _, _, h => by
    refine ((records_enterClass h name superclass).trans
      (records_walkMethods methods (h.enterClass name superclass))).of_eq ?_
    cases superclass <;> rfl

theorem records_walkMethods : ∀ (ds : List FunctionDecl) {around : List Layer} {s : State},
    Mirrors around s → Records s (methodsReferences around ds) (walkMethods ds s)
  | [], _, _, _ => .none rfl
  | d :: ds, _, s, h => by
    have hfunction := advance_walkFunction (methodContext d.name) d s
    exact (records_walkFunction _ d h).trans
      (records_walkMethods ds (h.same hfunction.2 hfunction.1.classes))

theorem records_walkStmts : ∀ (ss : List Stmt) {around : List Layer} {before : List Stmt} {s : State},
    Mirrors (.after before :: around) s →
    Records s (stmtsReferences around before ss) (walkStmts ss s)
  | [], _, _, _, _ => .none rfl
  | st :: ss, _, _, s, h =>
    (records_walkStmt st h).trans (records_walkStmts ss (h.behind (adds_walkStmt st s)))

end

/-- **Every reference is bound at its lexical distance.** The bindings of a program, in the order in
which they are made, are those of its references: every variable that is read or assigned to, every
superclass, every `super`, and every `this` inside a class. Each leads so many scopes outwards as there
are between the reference and the innermost one that declares the name before it, and nowhere if no
scope does; also where something is wrong with the names of the program. -/
theorem bindings_lexical (program : List Stmt) :
    (resolve program).bindings.toList = (references program).map Reference.binding := by
  have hrecords := records_walkStmts program Mirrors.initial.nothing
  rwa [Records, List.nil_append] at hrecords

end Scriptlet.Scope
