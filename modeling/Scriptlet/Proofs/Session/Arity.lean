import Scriptlet.Proofs.Parser.Arity
import Scriptlet.Proofs.Run.Declaration
import Scriptlet.Proofs.Session.Agreement
import Scriptlet.Proofs.Syntax.Limited

/-!
# The limit on parameters and arguments

A list of parameters or arguments that is too long does not stop the parser: it is read to its end and
kept whole, and an error is noted for each entry beyond the limit. But a chunk with a report is not run.
So all code that a session ever runs is within the limit, and so is every function made from it: the
declaration that a function carries is part of a program that has run.

Results:
* `History.limited`: the programs of a session are within the limit.
* `Run.HeapFits.limited`, `Run.TaskFits.bounded`: so are the functions in the store, those that are
  made, and the calls that are evaluated.
* `arity_limit`: **the limit is exact, and nothing that runs goes beyond it.**
-/

namespace Scriptlet

open Scriptlet.Parser (maxArity)
open Run

theorem FunctionDecl.Limited.params {decl : FunctionDecl} (h : decl.Limited) :
    decl.params.length ≤ maxArity := by
  cases decl
  exact h.1

theorem FunctionDecl.limitedAll_iff {ds : List FunctionDecl} :
    FunctionDecl.LimitedAll ds ↔ ∀ d ∈ ds, d.Limited := by
  induction ds with
  | nil => exact iff_of_true trivial (List.forall_mem_nil _)
  | cons d ds ih => exact (and_congr_right' ih).trans List.forall_mem_cons.symm

/-! ## Parts of a program -/

namespace Scope

/-- The part is within the limits. -/
def Code.Limited : Code → Prop
  | expr e => e.Limited
  | exprs es => Expr.LimitedAll es
  | stmt st => st.Limited
  | stmts ss => Stmt.LimitedAll ss
  | function _ decl => decl.Limited
  | methods ds => FunctionDecl.LimitedAll ds

theorem Step.limited {v w : Visit} (h : Step v w) (hv : v.code.Limited) : w.code.Limited := by
  cases h with
  | group | evaluated | block | function | operand | assigned | object | init | returned
  | classMethods =>
    exact hv
  | left | leftLogical | setObject | firstExpr | loopCondition | firstMethod | firstStmt =>
    exact hv.1
  | right | rightLogical | setValue | loopBody | otherExprs | otherMethods | otherStmts | body =>
    exact hv.2
  | callee => exact hv.2.1
  | arguments => exact hv.2.2
  | @condition c t o =>
    cases o with
    | none => exact hv.1
    | some e => exact hv.1
  | @thenDo c t o =>
    cases o with
    | none => exact hv.2
    | some e => exact hv.2.1
  | elseDo => exact hv.2.2

/-- **A part of a program within the limits is within the limits.** -/
theorem Visits.limited {program : List Stmt} {v : Visit} (h : Visits program v)
    (hprogram : Stmt.LimitedAll program) : v.code.Limited := by
  induction h with
  | refl => exact hprogram
  | tail _ hstep ih => exact hstep.limited ih

end Scope

/-! ## Values -/

/-- The function takes no more arguments than can be passed. -/
def Function.Limited (fn : Function) : Prop := fn.arity ≤ maxArity

/-- So do all methods of the class, those of its superclasses included. -/
def Class.Limited (c : Class) : Prop := ∀ K ∈ c.chain, ∀ fn ∈ K.methods, fn.Limited

def Value.Limited : Value → Prop
  | .function fn => fn.Limited
  | .cls c => c.Limited
  | _ => True

/-- **Every function in the store is within the limit**: what is bound in frames, what fields are, and
the methods of instances. -/
structure Store.Limited (st : Store) : Prop where
  bindings (f : FrameId) (x : String) (v : Value) : st.get? f x = some v → v.Limited
  fields (i : InstanceId) (x : String) (v : Value) : st.field? i x = some v → v.Limited
  classes (i : InstanceId) (c : Class) : st.class? i = some c → c.Limited

theorem Value.Limited.arity {v : Value} {n : Nat} (h : v.Limited) (hn : v.arity? = some n) :
    n ≤ maxArity := by
  cases v with
  | function fn =>
    cases hn
    exact h
  | native f =>
    cases hn
    cases f <;> decide
  | cls c =>
    cases hn
    unfold Class.arity
    cases hmethod : c.findMethod constructorName with
    | none => exact Nat.zero_le _
    | some method =>
      obtain ⟨K, hK, hmem⟩ := Class.exists_of_findMethod hmethod
      exact h K hK method hmem
  | _ => cases hn

namespace Run

open Scope Exec

/-- **The computation makes a function**: it declares it, or a class that it is a method of, or binds it
to an instance. A property may also be a field, with a function that was made before. -/
inductive Creates (σ : Scoping) : Moment → Function → Prop
  | declared {n decl m frame fn m'} (h : newFunction decl frame m = .ok fn m') :
    Creates σ ⟨n + 1, .exec (.function decl), m⟩ fn
  | method {n decl m made m' fn} (h : makeClass σ decl m = .ok made m')
      (hfn : fn ∈ made.2.methods) : Creates σ ⟨n + 1, .exec (.classDecl decl), m⟩ fn
  | property {n object name m x m' fn m''} (h : eval σ n object m = .ok x m')
      (h' : property x name m' = .ok (.function fn) m'') :
    Creates σ ⟨n + 1, .eval (.get object name), m⟩ fn
  | super {n ref keyword method m fn m'}
      (h : superMethod σ ref keyword method m = .ok (.function fn) m') :
    Creates σ ⟨n + 1, .eval (.super ref keyword method), m⟩ fn
  | constructor {n c args site m i m' method fn m''} (h : newInstance c m = .ok i m')
      (hmethod : c.findMethod constructorName = some method)
      (h' : bindMethod method i m' = .ok fn m'') :
    Creates σ ⟨n + 1, .apply (.cls c) args site, m⟩ fn

/-- **Nothing goes beyond the limit** when the computation starts: no function in the store, none that
the computation makes, no call that it evaluates, and no call with its arguments. -/
structure Bounded (σ : Scoping) (a : Moment) : Prop where
  store : a.machine.store.Limited
  created (fn : Function) : Creates σ a fn → fn.arity ≤ maxArity
  evaluated (callee : Expr) (paren : Token) (args : List Expr) :
    a.task = .eval (.call callee paren args) → args.length ≤ maxArity
  passed (callee : Value) (args : List Value) (site : Token) :
    a.task = .apply callee args site → args.length ≤ maxArity

section
variable {P : List Stmt → Prop} {Λ : Layout} {st : Store}

theorem Known.limited {v : Visit} (h : Known P v)
    (hP : ∀ program, P program → Stmt.LimitedAll program) : v.code.Limited := by
  obtain ⟨program, hprogram, hv⟩ := h
  exact hv.limited (hP program hprogram)

variable (hP : ∀ program, P program → Stmt.LimitedAll program)
include hP

/-- A function carries a declaration of one of the programs. -/
theorem FunctionFits.limited {fn : Function} (h : FunctionFits P Λ st fn) : fn.Limited := by
  obtain ⟨context, s, declared, hknown, -⟩ := h
  exact FunctionDecl.Limited.params (hknown.limited hP)

theorem ClassFits.limited {c : Class} (h : ClassFits P Λ st c) : c.Limited := by
  intro K hK fn hfn
  obtain ⟨decl, w, hbelongs, -⟩ := h K hK fn hfn
  obtain ⟨context, hcode⟩ := hbelongs.code
  have hlimited := hbelongs.known.limited hP
  rw [hcode] at hlimited
  exact FunctionDecl.Limited.params hlimited

theorem ValueFits.limited {v : Value} (h : ValueFits P Λ st v) : v.Limited := by
  cases v with
  | function fn => exact FunctionFits.limited hP h
  | cls c => exact ClassFits.limited hP h
  | _ => trivial

theorem HeapFits.limited (h : HeapFits P Λ st) : st.Limited where
  bindings f x v hv := (h.bindings f x v hv).fits.limited hP
  fields i x v hv := (h.fields i x v hv).limited hP
  classes i c hc := (h.classes i c hc).limited hP

end

variable {W : World} {Λ : Layout} {a : Moment}

/-- A function that is made is within the limit, since its declaration is. -/
theorem Creates.limited {fn : Function} (h : Creates W.scoping a fn)
    (ha : TaskFits W Λ a.machine a.task)
    (hW : ∀ program, W.programs program → Stmt.LimitedAll program) : fn.Limited := by
  cases h with
  | declared h =>
    obtain ⟨s, ns, hat⟩ := ha
    cases h
    exact FunctionDecl.Limited.params (hat.known.limited hW)
  | @method n decl m made m' fn h hfn =>
    obtain ⟨s, ns, hat⟩ := ha
    have hdecl : decl.Limited := hat.known.limited hW
    have hmem := ((makeClass_ok h).2 fn hfn).1
    cases decl
    exact (FunctionDecl.limitedAll_iff.mp hdecl _ hmem).params
  | @property n object name m x m' fn m'' h h' =>
    obtain ⟨s, ns, hat⟩ := ha
    have heval : eval W.scoping (n + 1) (.get object name) m = .ok (.function fn) m'' :=
      (bind_of_ok h).trans h'
    obtain ⟨Λ₁, -, hfits⟩ := ((preserves W (n + 1)).eval hat).ok heval
    exact ValueFits.limited hW hfits
  | @super n ref keyword method m fn m' h =>
    obtain ⟨s, ns, hat⟩ := ha
    have heval : eval W.scoping (n + 1) (.super ref keyword method) m = .ok (.function fn) m' := h
    obtain ⟨Λ₁, -, hfits⟩ := ((preserves W (n + 1)).eval hat).ok heval
    exact ValueFits.limited hW hfits
  | @constructor n c args site m i m' method fn m'' h hmethod h' =>
    have hstart : Starts W.scoping ⟨n + 1, .apply (.cls c) args site, m⟩ ⟨n, .call fn args, m''⟩ :=
      .constructed h hmethod h'
    obtain ⟨Λ₁, -, hfits, -⟩ := hstart.fits ⟨Λ, ha⟩
    exact FunctionFits.limited hW hfits

/-- **Where the invariant holds, nothing goes beyond the limit.** -/
theorem TaskFits.bounded (h : TaskFits W Λ a.machine a.task)
    (hW : ∀ program, W.programs program → Stmt.LimitedAll program) : Bounded W.scoping a where
  store := h.heap.limited hW
  created fn hfn := hfn.limited h hW
  evaluated callee paren args htask := by
    rw [htask] at h
    obtain ⟨s, ns, hat⟩ := h
    exact (hat.known.limited hW).1
  passed callee args site htask := by
    rw [htask] at h
    obtain ⟨-, hcallee, -, harity⟩ := h
    exact (ValueFits.limited hW hcallee).arity harity

end Run

/-! ## Sessions -/

namespace Session

variable {s : Session} {ps : List (List Stmt)}

/-- **The programs of a session are within the limits.** -/
theorem History.limited (h : History s ps) : ∀ program ∈ ps, Stmt.LimitedAll program := by
  induction h with
  | start => exact List.forall_mem_nil _
  | clock _ _ ih => exact ih
  | rejected _ _ _ ih => exact ih
  | ran _ hreports _ ih => exact List.forall_mem_cons.mpr ⟨(compile_program hreports).limited, ih⟩

/-- Whenever a run of a chunk without reports comes to a computation, nothing goes beyond the limit. -/
theorem History.bounded {source : String} {a : Moment} (h : History s ps)
    (hreports : (compile source s.nextRef).reports = []) (ha : s.Passes source a) :
    Bounded (s.keep (compile source s.nextRef)).scoping a := by
  obtain ⟨Λ, hfits⟩ := ha.fits h.fits hreports
  exact hfits.bounded (List.forall_mem_cons.mpr ⟨(compile_program hreports).limited, h.limited⟩)

end Session

/-- **The limit on parameters and arguments is exact, stops nothing that is parsed, and bounds all that
runs.**

Wherever a call begins, its arguments are read as a list in parentheses, and so are the parameters of
every function and method. Such a list is read, with enough steps, just when each of its entries is,
however many they are and whatever lists they contain themselves, and a parenthesis closes it. All
entries are kept in their order. The errors noted are those that the entries note on their own, and
before those of each entry from the 256th on one more, at its first token; so of a list with `k` entries
there are `k - 255` of them.

In every session, whatever has happened in it, the functions in the store are within the limit, and at
every moment of a run so are those that are made and the calls that are evaluated. -/
theorem arity_limit :
    (∀ n callee (s : Parser.State) left rest, s.rest = left :: rest → left.is .leftParen = true →
      Parser.suffixes (n + 1) callee s =
        (Parser.argumentList n >>= fun list => Parser.suffixes n (.call callee list.2 list.1))
          (s.read left rest)) ∧
    (∀ s args paren t, (∃ n, Parser.argumentList n s = .ok (args, paren) t) ↔
      ∃ es, Parser.Enclosed Parser.expression s es paren t ∧ args = es.map (·.value) ∧
        t.errors.toList = s.errors.toList ++ Parser.listErrors .tooManyArguments es) ∧
    (∀ es : List (Parser.Entry Expr), (Parser.listErrors .tooManyArguments es).length =
      (es.flatMap (·.errors.toList)).length + (es.length - 255)) ∧
    (∀ n form, Parser.function (n + 1) form = (do
      let name ← Parser.expect .identifier (.noFunctionName form)
      let _ ← Parser.expect .leftParen (.noParameters form)
      let list ← Parser.parameterList n
      let _ ← Parser.expect .leftBrace (.noFunctionBody form)
      let body ← Parser.block n
      return ⟨name, list.1, body⟩)) ∧
    (∀ s params paren t, (∃ n, Parser.parameterList n s = .ok (params, paren) t) ↔
      ∃ es, Parser.Enclosed Parser.parameter s es paren t ∧ params = es.map (·.value) ∧
        t.errors.toList = s.errors.toList ++
          (params.drop 255).map fun p => ⟨p, .tooManyParameters⟩) ∧
    ∀ s ps, Session.History s ps → s.machine.store.Limited ∧
      ∀ source, (compile source s.nextRef).reports = [] → ∀ a, s.Passes source a →
        Bounded (s.keep (compile source s.nextRef)).scoping a := by
  refine ⟨fun n callee s left rest => Parser.suffixes_call n callee,
    fun s args paren t => Parser.enclosed_iff Parser.entryRule_expression,
    Parser.length_listErrors _, Parser.function_eq, fun s params paren t => ?_, fun s ps hs => ⟨?_,
    fun source hreports a ha => hs.bounded hreports ha⟩⟩
  · refine (Parser.enclosed_iff Parser.entryRule_parameter).trans (exists_congr fun es =>
      and_congr_right fun hes => and_congr_right fun hparams => ?_)
    rw [hes.listErrors_parameters, hparams]
    rfl
  · obtain ⟨Λ, hheap⟩ := hs.fits.heap
    exact hheap.limited hs.limited

/-- A function is about to be declared. -/
def declaresFunction : Moment → Bool
  | ⟨_ + 1, .exec (.function _), _⟩ => true
  | _ => false

/-- A call is about to be evaluated. -/
def evaluatesCall (a : Moment) : Bool :=
  match a.task with
  | .eval (.call _ _ _) => true
  | _ => false

/-- The list has so many arguments, and so many errors are noted. -/
def readsArguments (entries errors : Nat) : Parser.Result (List Expr × Token) → Bool
  | .ok (args, _) t => args.length == entries && t.errors.size == errors
  | _ => false

/-- A list of 256 arguments, and a function that is declared and called in the first chunk of a
session. -/
theorem arity_limit_call :
    let left : Token := ⟨.symbol .leftParen, "(", 1⟩
    let right : Token := ⟨.symbol .rightParen, ")", 1⟩
    let comma : Token := ⟨.symbol .comma, ",", 1⟩
    let null : Token := ⟨.symbol .nullKw, "null", 1⟩
    let rest := (List.replicate 255 [null, comma]).flatten ++ [null, right]
    let s : Parser.State := ⟨left, left :: rest, 0, #[]⟩
    let source := "function f(x){}f(1);"
    let session := Session.start .nan none
    let σ := (session.keep (compile source session.nextRef)).scoping
    Parser.suffixes 301 (.literal .null) s =
        (Parser.argumentList 300 >>= fun list =>
          Parser.suffixes 300 (.call (.literal .null) list.2 list.1)) (s.read left rest) ∧
      (∃ es paren t, Parser.argumentList 300 (s.read left rest) = .ok (es.map (·.value), paren) t ∧
        Parser.Enclosed Parser.expression (s.read left rest) es paren t ∧ es.length = 256 ∧
        t.errors.toList = Parser.listErrors .tooManyArguments es ∧ t.errors.size = 1) ∧
      session.machine.store.Limited ∧
      (∃ a fn, session.Passes source a ∧ Creates σ a fn ∧ fn.arity ≤ maxArity) ∧
      ∃ a callee paren args, session.Passes source a ∧ a.task = .eval (.call callee paren args) ∧
        args.length ≤ maxArity := by
  intro left right comma null rest s source session σ
  obtain ⟨hcall, harguments, -, -, -, hsession⟩ := arity_limit
  obtain ⟨hstore, hbounded⟩ := hsession _ _ (.start .nan none)
  have hreports : (compile source session.nextRef).reports = [] := by decide +kernel
  refine ⟨hcall 300 _ s left rest rfl (by decide), ?_, hstore, ?_, ?_⟩
  · have hread : readsArguments 256 1 (Parser.argumentList 300 (s.read left rest)) = true := by
      decide +kernel
    unfold readsArguments at hread
    split at hread
    case h_2 => cases hread
    rename_i args paren t hlist
    simp only [Bool.and_eq_true, beq_iff_eq] at hread
    obtain ⟨es, hes, rfl, herrors⟩ := (harguments _ _ _ _).mp ⟨300, hlist⟩
    rw [List.length_map] at hread
    exact ⟨es, paren, t, hlist, hes, hread.1, herrors, hread.2⟩
  · obtain ⟨a, ha, hdeclares⟩ :=
      session.passes_of_any source declaresFunction 8 8 (by decide +kernel)
    unfold declaresFunction at hdeclares
    split at hdeclares
    case h_2 => cases hdeclares
    rename_i n decl m
    have hcreates : Creates σ ⟨n + 1, .exec (.function decl), m⟩ ⟨m.nextId, decl, m.current⟩ :=
      .declared rfl
    exact ⟨_, _, ha, hcreates, (hbounded source hreports _ ha).created _ hcreates⟩
  · obtain ⟨a, ha, hcalls⟩ := session.passes_of_any source evaluatesCall 8 8 (by decide +kernel)
    unfold evaluatesCall at hcalls
    split at hcalls
    case h_2 => cases hcalls
    rename_i callee paren args htask
    exact ⟨a, callee, paren, args, ha, htask,
      (hbounded source hreports a ha).evaluated callee paren args htask⟩

end Scriptlet
