import Scriptlet.Proofs.Number
import Scriptlet.Proofs.Syntax.Written
import Scriptlet.Syntax.Printer

/-!
# Printed trees

A tree is printed as words and lists in parentheses: `Expr.sexp` and `Stmt.sexp` say which. Of a printable
tree all words can be told from what follows them: operators and names are lexemes, and literals are
digits, points and keywords.

Results:
* `Expr.toList_tree`, `Stmt.toList_tree`: **the printed form of a tree is the text of its words and
  lists.**
* `Expr.Printable.legible`, `Stmt.Printable.legible`: the words of printable trees can be told from what
  follows them.
-/

namespace Scriptlet

/-! ## Trees as lists in parentheses -/

mutual

/-- The words and lists that an expression is printed as. -/
def Expr.sexp : Expr → Sexp
  | .literal value => .word value.tree
  | .unary op operand => .list [.word op.lexeme, operand.sexp]
  | .binary left op right => .list [.word op.lexeme, left.sexp, right.sexp]
  | .logical left op right => .list [.word op.lexeme, left.sexp, right.sexp]
  | .group inner => .list [.word "group", inner.sexp]
  | .var _ name => .word name.lexeme
  | .assign _ name value => .list [.word "=", .word name.lexeme, value.sexp]
  | .call callee _ args => .list (.word "call" :: callee.sexp :: Expr.sexps args)
  | .get object name => .list [.word ".", object.sexp, .word name.lexeme]
  | .set object name value =>
    .list [.word "=", .list [.word ".", object.sexp, .word name.lexeme], value.sexp]
  | .this _ _ => .word "this"
  | .super _ _ method => .list [.word "super", .word method.lexeme]
termination_by structural e => e

def Expr.sexps : List Expr → List Sexp
  | [] => []
  | e :: es => e.sexp :: Expr.sexps es
termination_by structural es => es

end

/-- A name that may be left out, with a sign before it. -/
def wordAfter (sign : String) : Option Token → List Sexp
  | some name => [.word sign, .word name.lexeme]
  | none => []

mutual

/-- The words and lists that a statement is printed as. -/
def Stmt.sexp : Stmt → Sexp
  | .expr e => .list [.word ";", e.sexp]
  | .declare name init => .list (.word "let" :: .word name.lexeme :: (init.map Expr.sexp).toList)
  | .block body => .list (.word "block" :: Stmt.sexps body)
  | .branch cond thenDo elseDo =>
    .list (.word "if" :: cond.sexp :: thenDo.sexp :: Stmt.optional elseDo)
  | .loop cond body => .list [.word "while", cond.sexp, body.sexp]
  | .function decl => .list (.word "function" :: decl.parts)
  | .ret _ value => .list (.word "return" :: (value.map Expr.sexp).toList)
  | .classDecl decl => .list (.word "class" :: decl.parts)
termination_by structural s => s

/-- Name, parameters and body of a function. -/
def FunctionDecl.parts : FunctionDecl → List Sexp
  | ⟨name, params, body⟩ =>
    .word name.lexeme :: .list (params.map (.word ·.lexeme)) :: Stmt.sexps body
termination_by structural decl => decl

/-- Name, superclass, interface and methods of a class. -/
def ClassDecl.parts : ClassDecl → List Sexp
  | ⟨name, superclass, interface, methods⟩ =>
    .word name.lexeme :: (wordAfter "<" (superclass.map (·.name)) ++
      (wordAfter ":" interface ++ FunctionDecl.sexps methods))
termination_by structural decl => decl

/-- A statement that may be left out. -/
def Stmt.optional : Option Stmt → List Sexp
  | none => []
  | some s => [s.sexp]
termination_by structural o => o

def Stmt.sexps : List Stmt → List Sexp
  | [] => []
  | s :: ss => s.sexp :: Stmt.sexps ss
termination_by structural ss => ss

def FunctionDecl.sexps : List FunctionDecl → List Sexp
  | [] => []
  | d :: ds => .list (.word "method" :: d.parts) :: FunctionDecl.sexps ds
termination_by structural ds => ds

end

open Sexp (chars inside further)

mutual

/-- **The printed form of an expression is the text of its words and lists.** -/
theorem Expr.toList_tree : ∀ e : Expr, e.tree.toList = e.sexp.chars
  | .literal value => rfl
  | .unary op operand => by simp [Expr.tree, Expr.sexp, Expr.toList_tree operand]
  | .binary left op right => by
    simp [Expr.tree, Expr.sexp, Expr.toList_tree left, Expr.toList_tree right]
  | .logical left op right => by
    simp [Expr.tree, Expr.sexp, Expr.toList_tree left, Expr.toList_tree right]
  | .group inner => by simp [Expr.tree, Expr.sexp, Expr.toList_tree inner]
  | .var _ name => rfl
  | .assign _ name value => by simp [Expr.tree, Expr.sexp, Expr.toList_tree value]
  | .call callee _ args => by
    simp [Expr.tree, Expr.sexp, Expr.toList_tree callee, Expr.toList_trees args]
  | .get object name => by simp [Expr.tree, Expr.sexp, Expr.toList_tree object]
  | .set object name value => by
    simp [Expr.tree, Expr.sexp, Expr.toList_tree object, Expr.toList_tree value]
  | .this _ _ => rfl
  | .super _ _ method => by simp [Expr.tree, Expr.sexp]
termination_by structural e => e

theorem Expr.toList_trees : ∀ es : List Expr,
    (Expr.trees es).toList ++ [')'] = further (Expr.sexps es)
  | [] => rfl
  | e :: es => by simp [Expr.trees, Expr.sexps, Expr.toList_tree e, ← Expr.toList_trees es]
termination_by structural es => es

end

/-- The parameters of a function are printed as a list. -/
theorem toList_params (params : List Token) :
    '(' :: ((" ".intercalate (params.map (·.lexeme))).toList ++ [')']) =
      (Sexp.list (params.map (.word ·.lexeme))).chars := by
  have hcons (name : Token) (params : List Token) :
      (" ".intercalate ((name :: params).map (·.lexeme))).toList ++ [')'] =
        inside ((name :: params).map (.word ·.lexeme)) := by
    induction params generalizing name with
    | nil => simp
    | cons name' params ih =>
      have hrest := ih name'
      rw [List.map_cons, List.map_cons, String.intercalate_cons_cons, ← List.map_cons,
        String.toList_append, List.append_assoc, hrest]
      simp
  cases params with
  | nil => rfl
  | cons name params => exact congrArg ('(' :: ·) (hcons name params)

mutual

/-- **The printed form of a statement is the text of its words and lists.** -/
theorem Stmt.toList_tree : ∀ st : Stmt, st.tree.toList = st.sexp.chars
  | .expr e => by simp [Stmt.tree, Stmt.sexp, e.toList_tree]
  | .declare name none => by simp [Stmt.tree, Stmt.sexp]
  | .declare name (some init) => by simp [Stmt.tree, Stmt.sexp, init.toList_tree]
  | .block body => by simp [Stmt.tree, Stmt.sexp, Stmt.toList_trees body]
  | .branch cond thenDo none => by
    simp [Stmt.tree, Stmt.sexp, Stmt.optional, cond.toList_tree, Stmt.toList_tree thenDo]
  | .branch cond thenDo (some elseDo) => by
    simp [Stmt.tree, Stmt.sexp, Stmt.optional, cond.toList_tree, Stmt.toList_tree thenDo,
      Stmt.toList_tree elseDo]
  | .loop cond body => by simp [Stmt.tree, Stmt.sexp, cond.toList_tree, Stmt.toList_tree body]
  | .function decl => by simp [Stmt.tree, Stmt.sexp, ← FunctionDecl.toList_tree decl]
  | .ret _ none => by simp [Stmt.tree, Stmt.sexp]
  | .ret _ (some value) => by simp [Stmt.tree, Stmt.sexp, value.toList_tree]
  | .classDecl decl => by simp [Stmt.tree, Stmt.sexp, ClassDecl.toList_tree decl]
termination_by structural st => st

theorem FunctionDecl.toList_tree : ∀ decl : FunctionDecl,
    ' ' :: (decl.tree.toList ++ [')']) = further decl.parts
  | ⟨name, params, body⟩ => by
    simp [FunctionDecl.tree, FunctionDecl.parts, Stmt.toList_trees body, ← toList_params params,
      -Sexp.chars_list]
termination_by structural decl => decl

theorem ClassDecl.toList_tree : ∀ decl : ClassDecl,
    decl.tree.toList = '(' :: ("class".toList ++ further decl.parts)
  | ⟨name, superclass, interface, methods⟩ => by
    cases superclass <;> cases interface <;>
      simp [ClassDecl.tree, ClassDecl.parts, wordAfter, FunctionDecl.toList_trees methods]
termination_by structural decl => decl

theorem Stmt.toList_trees : ∀ sts : List Stmt,
    (Stmt.trees sts).toList ++ [')'] = further (Stmt.sexps sts)
  | [] => rfl
  | st :: sts => by
    simp [Stmt.trees, Stmt.sexps, Stmt.toList_tree st, ← Stmt.toList_trees sts]
termination_by structural sts => sts

theorem FunctionDecl.toList_trees : ∀ ds : List FunctionDecl,
    (FunctionDecl.trees ds).toList ++ [')'] = further (FunctionDecl.sexps ds)
  | [] => rfl
  | d :: ds => by
    simp [FunctionDecl.trees, FunctionDecl.sexps,
      ← FunctionDecl.toList_tree d, ← FunctionDecl.toList_trees ds]
termination_by structural ds => ds

end

/-! ## The words of a printable tree -/

theorem plain_of_numeral {c : Char} (h : c.isDigit = true ∨ c = '.') : (!isDelimiter c) = true := by
  rw [Bool.not_eq_true', Bool.eq_false_iff]
  intro hc
  rcases isDelimiter_cases hc with rfl | rfl | rfl | rfl <;> exact absurd h (by decide)

theorem digit_not_start {c : Char} (h : c.isDigit = true) : Lexer.isWordStart c = false := by
  rw [Char.isDigit, Bool.and_eq_true, decide_eq_true_eq, decide_eq_true_eq] at h
  have hle : c ≤ '9' := h.2
  refine Bool.eq_false_iff.mpr fun hc => ?_
  simp only [Lexer.isWordStart, Bool.or_eq_true, Bool.and_eq_true, decide_eq_true_eq,
    beq_iff_eq] at hc
  rcases hc with (⟨hlow, -⟩ | ⟨hlow, -⟩) | rfl
  · exact absurd (Char.le_trans hlow hle) (by decide)
  · exact absurd (Char.le_trans hlow hle) (by decide)
  · exact absurd hle (by decide)

/-- A printed number does not begin like a name, and has no delimiter in it. -/
theorem treeText_cons {x : Number} (hx : x.isFinite = true) :
    ∃ c rest, x.treeText.toList = c :: rest ∧ Lexer.isWordStart c = false ∧
      ∀ d ∈ c :: rest, (!isDelimiter d) = true := by
  obtain ⟨numeral, htext, hnumeral, -⟩ := Number.treeText_spec hx
  obtain ⟨c, rest, hhead, hc⟩ := hnumeral.head
  have hall : ∀ d ∈ numeral, (!isDelimiter d) = true :=
    fun d hd => plain_of_numeral (hnumeral.mem d hd)
  unfold Number.sign at htext
  cases hneg : x.isNegative <;> rw [hneg] at htext
  · exact ⟨c, rest, htext.trans hhead, digit_not_start hc, hhead ▸ hall⟩
  · exact ⟨'-', numeral, htext, rfl, List.forall_mem_cons.mpr ⟨rfl, hall⟩⟩

theorem Literal.Printable.isWord {value : Literal} (h : value.Printable) : IsWord value.tree := by
  cases value with
  | number x =>
    obtain ⟨c, rest, htext, -, hall⟩ := treeText_cons h
    refine ⟨?_, ?_⟩
    · rw [Literal.tree, htext]
      exact List.cons_ne_nil _ _
    · rw [Literal.tree, htext]
      exact hall
  | string value => exact h.elim
  | bool b => cases b <;> exact of_decide_eq_true rfl
  | null => exact of_decide_eq_true rfl

theorem Expr.sexps_eq_map (es : List Expr) : Expr.sexps es = es.map Expr.sexp := by
  induction es with
  | nil => rfl
  | cons e es ih => exact congrArg (e.sexp :: ·) ih

theorem isWord_of_operator {t : Token} {k : Symbol} (h : t.WrittenAs k) {ks : List Symbol} (hk : k ∈ ks)
    (hks : .leftParen ∉ ks ∧ .rightParen ∉ ks) : IsWord t.lexeme :=
  h.isWord (ne_of_mem_of_not_mem hk hks.1) (ne_of_mem_of_not_mem hk hks.2)

theorem Token.WrittenAs.legible {t : Token} (h : t.WrittenAs .identifier) :
    (Sexp.word t.lexeme).Legible := .word (h.isWord (by decide) (by decide))

open Sexp (legible_cons legible_nil)

theorem legible_headed {w : String} (h : IsWord w) {ss : List Sexp} (hs : ∀ s ∈ ss, s.Legible) :
    (Sexp.list (.word w :: ss)).Legible := .list (legible_cons (.word h) hs)

/-- All words of a printable expression can be told from what follows them. -/
theorem Expr.Printable.legible {e : Expr} (h : e.Printable) : e.sexp.Legible := by
  induction h with
  | literal h => exact .word h.isWord
  | unary hk hop _ ih =>
    exact legible_headed (isWord_of_operator hop hk (by decide)) (legible_cons ih legible_nil)
  | binary _ hk hop _ ihl ihr =>
    exact legible_headed (isWord_of_operator hop hk (by decide))
      (legible_cons ihl (legible_cons ihr legible_nil))
  | logical _ hk hop _ ihl ihr =>
    exact legible_headed (isWord_of_operator hop hk (by decide))
      (legible_cons ihl (legible_cons ihr legible_nil))
  | group _ ih => exact legible_headed (by decide) (legible_cons ih legible_nil)
  | var hn => exact hn.legible
  | assign hn _ ih =>
    exact legible_headed (by decide) (legible_cons hn.legible (legible_cons ih legible_nil))
  | call _ _ _ ih ihs =>
    refine legible_headed (by decide) (legible_cons ih ?_)
    rw [Expr.sexps_eq_map]
    exact List.forall_mem_map.mpr ihs
  | get _ hn ih =>
    exact legible_headed (by decide) (legible_cons ih (legible_cons hn.legible legible_nil))
  | set _ hn _ iho ihe =>
    have hget := legible_headed (w := ".") (by decide)
      (legible_cons iho (legible_cons hn.legible legible_nil))
    exact legible_headed (by decide) (legible_cons hget (legible_cons ihe legible_nil))
  | this _ => exact .word (by decide)
  | super _ hm => exact legible_headed (by decide) (legible_cons hm.legible legible_nil)

theorem Stmt.sexps_eq_map (sts : List Stmt) : Stmt.sexps sts = sts.map Stmt.sexp := by
  induction sts with
  | nil => rfl
  | cons st sts ih => exact congrArg (st.sexp :: ·) ih

theorem Stmt.optional_eq (o : Option Stmt) : Stmt.optional o = (o.map Stmt.sexp).toList := by
  cases o <;> rfl

theorem FunctionDecl.sexps_eq_map (ds : List FunctionDecl) :
    FunctionDecl.sexps ds = ds.map (fun d => .list (.word "method" :: d.parts)) := by
  induction ds with
  | nil => rfl
  | cons d ds ih => exact congrArg (.list (.word "method" :: d.parts) :: ·) ih

/-- An expression that may be left out. -/
theorem legible_optional {o : Option Expr} (h : ∀ e ∈ o, e.Printable) :
    ∀ s ∈ (o.map Expr.sexp).toList, s.Legible := by
  cases o with
  | none => exact legible_nil
  | some e => exact legible_cons (h e rfl).legible legible_nil

theorem legible_wordAfter {sign : String} (hsign : IsWord sign) {o : Option Token}
    (h : ∀ t ∈ o, t.WrittenAs .identifier) : ∀ s ∈ wordAfter sign o, s.Legible := by
  cases o with
  | none => exact legible_nil
  | some name => exact legible_cons (.word hsign) (legible_cons (h name rfl).legible legible_nil)

mutual

/-- All words of a printable statement can be told from what follows them. -/
theorem Stmt.Printable.legible : ∀ {st : Stmt}, st.Printable → st.sexp.Legible
  | _, .expr he => legible_headed (by decide) (legible_cons he.legible legible_nil)
  | _, .declare hn hinit =>
    legible_headed (by decide) (legible_cons hn.legible (legible_optional hinit))
  | .block body, .block h => by
    refine legible_headed (by decide) ?_
    rw [Stmt.sexps_eq_map]
    exact List.forall_mem_map.mpr fun st hst => (h st hst).legible
  | .branch cond thenDo none, .branch hc ht _ =>
    legible_headed (by decide) (legible_cons hc.legible (legible_cons ht.legible legible_nil))
  | .branch cond thenDo (some elseDo), .branch hc ht he =>
    legible_headed (by decide) (legible_cons hc.legible (legible_cons ht.legible
      (legible_cons (he elseDo rfl).legible legible_nil)))
  | _, .loop hc hb =>
    legible_headed (by decide) (legible_cons hc.legible (legible_cons hb.legible legible_nil))
  | _, .function h => legible_headed (by decide) h.legible
  | _, .ret _ hv => legible_headed (by decide) (legible_optional hv)
  | .classDecl ⟨name, superclass, interface, methods⟩, .classDecl hn hs hi hm => by
    have hmethods : ∀ s ∈ FunctionDecl.sexps methods, s.Legible := by
      rw [FunctionDecl.sexps_eq_map]
      exact List.forall_mem_map.mpr fun d hd => legible_headed (by decide) (hm d hd).legible
    refine legible_headed (by decide) (legible_cons hn.legible (List.forall_mem_append.mpr
      ⟨legible_wordAfter (by decide) fun t ht => ?_,
        List.forall_mem_append.mpr ⟨legible_wordAfter (by decide) hi, hmethods⟩⟩))
    obtain ⟨parent, hparent, rfl⟩ := Option.mem_map.mp ht
    exact hs parent hparent
termination_by structural _ h => h

theorem FunctionDecl.Printable.legible : ∀ {decl : FunctionDecl}, decl.Printable →
    ∀ s ∈ decl.parts, s.Legible
  | ⟨name, params, body⟩, .mk hn hp hb => by
    have hbody : ∀ s ∈ Stmt.sexps body, s.Legible := by
      rw [Stmt.sexps_eq_map]
      exact List.forall_mem_map.mpr fun st hst => (hb st hst).legible
    exact legible_cons hn.legible
      (legible_cons (.list (List.forall_mem_map.mpr fun p h => (hp p h).legible)) hbody)
termination_by structural _ h => h

end

end Scriptlet
