import Scriptlet.Proofs.Syntax.Printed

/-!
# Reading printed trees

The form of an expression can be read off the words and lists it is printed as (`Sexp.form`): a list
says by its first word what it is, with two exceptions. An operator before two operands is a binary one,
whichever it is, and an assignment is one to a property if a list comes first. A word is `this`, a name
or a literal. Statements differ in their first words. So two printable trees with the same words and
lists have the same form, and their parts have the same words and lists.

Results:
* `Expr.Printable.form_sexp`: the form of a printable expression can be read off.
* `Expr.Printable.like`, `Stmt.Printable.like`: **printable trees with the same words and lists are
  alike.**
* `program_of_tree`: **the printed tree determines the program.**
-/

namespace Scriptlet

/-! ## One form of expression for each text -/

/-- The forms that expressions are printed in. -/
inductive Form where
  | literal | var | this | unary | binary | logical | group | assign | call | get | set | super
deriving DecidableEq

def Expr.form : Expr → Form
  | .literal _ => .literal
  | .unary _ _ => .unary
  | .binary _ _ _ => .binary
  | .logical _ _ _ => .logical
  | .group _ => .group
  | .var _ _ => .var
  | .assign _ _ _ => .assign
  | .call _ _ _ => .call
  | .get _ _ => .get
  | .set _ _ _ => .set
  | .this _ _ => .this
  | .super _ _ _ => .super

/-- A word that is read as a name. -/
def readsAsName (word : String) : Bool :=
  word.toList.head?.any Lexer.isWordStart && Symbol.ofWord word = .identifier

/-- What a list that begins with the word is, judged by the word alone. -/
def headForm (word : String) : Form :=
  match word with
  | "group" => .group
  | "call" => .call
  | "super" => .super
  | "." => .get
  | "=" => .assign
  | "||" => .logical
  | "&&" => .logical
  | _ => .unary

/-- What a list is, the other parts being taken into account. -/
def Form.ofParts : Form → List Sexp → Form
  | assign, .list _ :: _ => set
  | unary, [_, _] => binary
  | form, _ => form

/-- **The form of an expression, read off its words and lists.** -/
def Sexp.form : Sexp → Form
  | .word text => if text = "this" then .this else if readsAsName text then .var else .literal
  | .list (.word text :: parts) => (headForm text).ofParts parts
  | .list _ => .literal

/-- No number is printed like a name or a keyword. -/
theorem treeText_ne {x : Number} (hx : x.isFinite = true) {text : String}
    (htext : text.toList.head?.any Lexer.isWordStart = true) : x.treeText ≠ text := by
  rintro rfl
  obtain ⟨c, rest, hcons, hc, -⟩ := treeText_cons hx
  rw [hcons] at htext
  exact absurd htext (Bool.eq_false_iff.mp hc)

theorem Literal.Printable.form {value : Literal} (h : value.Printable) :
    (Sexp.word value.tree).form = .literal := by
  cases value with
  | number x =>
    have hname : readsAsName x.treeText = false := by
      obtain ⟨c, rest, hcons, hc, -⟩ := treeText_cons h
      rw [readsAsName, hcons, List.head?_cons, Option.any_some, hc]
      rfl
    rw [Literal.tree, Sexp.form, if_neg (treeText_ne h rfl), hname]
    rfl
  | string value => exact h.elim
  | bool b => cases b <;> rfl
  | null => rfl

theorem Token.WrittenAs.form {t : Token} (h : t.WrittenAs .identifier) :
    (Sexp.word t.lexeme).form = .var := by
  have hword := h.word (by decide)
  have hthis : t.lexeme ≠ "this" := by
    intro e
    rw [e] at hword
    cases hword
  have hname : readsAsName t.lexeme = true := by
    rcases symbol_cases h.lexeme with hop | ⟨-, c, rest, htext, hc, -⟩
    · cases isWord_operator _ hop
    · rw [readsAsName, htext, hword]
      simp [hc]
  rw [Sexp.form, if_neg hthis, if_pos hname]

theorem headForm_operator : ∀ p ∈ Lexer.operators,
    (p.2 ∈ unaryOperators ∨ p.2 ∈ binaryOperators → headForm (String.ofList p.1) = .unary) ∧
      (p.2 ∈ logicalOperators → headForm (String.ofList p.1) = .logical) := by
  decide

theorem Token.WrittenAs.headForm {t : Token} {k : Symbol} (h : t.WrittenAs k)
    (hk : k.isWord = false) :
    (k ∈ unaryOperators ∨ k ∈ binaryOperators → headForm t.lexeme = .unary) ∧
      (k ∈ logicalOperators → headForm t.lexeme = .logical) := by
  have hform := headForm_operator _ (h.operator hk)
  rwa [String.ofList_toList] at hform

theorem isWord_of_operators :
    ∀ k ∈ unaryOperators ++ binaryOperators ++ logicalOperators, k.isWord = false := by decide

/-- **The form of a printable expression can be read off** its words and lists. -/
theorem Expr.Printable.form_sexp {e : Expr} (h : e.Printable) : e.sexp.form = e.form := by
  cases h with
  | literal h => exact h.form
  | @unary k op e hk hop _ =>
    have hhead := (hop.headForm (isWord_of_operators k (by simp [hk]))).1 (.inl hk)
    exact congrArg (Form.ofParts · [e.sexp]) hhead
  | @binary k left right op _ hk hop _ =>
    have hhead := (hop.headForm (isWord_of_operators k (by simp [hk]))).1 (.inr hk)
    exact congrArg (Form.ofParts · [left.sexp, right.sexp]) hhead
  | @logical k left right op _ hk hop _ =>
    have hhead := (hop.headForm (isWord_of_operators k (by simp [hk]))).2 hk
    exact congrArg (Form.ofParts · [left.sexp, right.sexp]) hhead
  | group => rfl
  | var hn => exact hn.form
  | assign => rfl
  | call => rfl
  | get => rfl
  | set => rfl
  | this => rfl
  | super => rfl

/-! ## Expressions -/

open List (Forall₂)

/-- All lines and all identities answer each other. -/
def Pairing.any : Pairing := .ofLines fun _ _ => True

/-- What is alike whenever its images are the same is alike part by part. -/
theorem forall₂_of_map_eq {α β : Type} {f : α → β} {R : α → α → Prop} : ∀ {as as' : List α},
    (∀ a ∈ as, ∀ a' ∈ as', f a = f a' → R a a') → as.map f = as'.map f → Forall₂ R as as'
  | [], [], _, _ => .nil
  | a :: as, a' :: as', h, heq => by
    obtain ⟨hhead, htail⟩ := List.cons.inj heq
    exact .cons (h a List.mem_cons_self a' List.mem_cons_self hhead)
      (forall₂_of_map_eq (fun b hb b' hb' => h b (List.mem_cons_of_mem a hb) b'
        (List.mem_cons_of_mem a' hb')) htail)

theorem rel_of_map_eq {α β : Type} {f : α → β} {R : α → α → Prop} {o o' : Option α}
    (h : ∀ a ∈ o, ∀ a' ∈ o', f a = f a' → R a a') (heq : (o.map f).toList = (o'.map f).toList) :
    Option.Rel R o o' := by
  cases o with
  | none =>
    cases o' with
    | none => exact .none
    | some a' => cases heq
  | some a =>
    cases o' with
    | none => cases heq
    | some a' => exact .some (h a rfl a' rfl (List.cons.inj heq).1)

theorem Literal.Printable.eq {value value' : Literal} (h : value.Printable) (h' : value'.Printable)
    (heq : value.tree = value'.tree) : value = value' := by
  cases value with
  | number x =>
    cases value' with
    | number y => rw [Number.treeText_injective h h' heq]
    | string => exact h'.elim
    | bool b => cases b <;> exact absurd heq (treeText_ne h rfl)
    | null => exact absurd heq (treeText_ne h rfl)
  | string => exact h.elim
  | bool b =>
    cases value' with
    | number y => cases b <;> exact absurd heq.symm (treeText_ne h' rfl)
    | string => exact h'.elim
    | bool b' =>
      cases b <;> cases b' <;> first | rfl | exact absurd heq (by decide)
    | null => cases b <;> exact absurd heq (by decide)
  | null =>
    cases value' with
    | number y => exact absurd heq.symm (treeText_ne h' rfl)
    | string => exact h'.elim
    | bool b => cases b <;> exact absurd heq (by decide)
    | null => rfl

theorem Expr.Printable.form_eq {e e' : Expr} (h : e.Printable) (h' : e'.Printable)
    (heq : e.sexp = e'.sexp) : e.form = e'.form := by
  rw [← h.form_sexp, ← h'.form_sexp, heq]

/-- **Printable expressions with the same words and lists are alike.** -/
theorem Expr.Printable.like {e e' : Expr} (h : e.Printable) (h' : e'.Printable)
    (heq : e.sexp = e'.sexp) : e.Like .any e' := by
  induction h generalizing e' with
  | literal h =>
    have hform := (Expr.Printable.literal h).form_eq h' heq
    cases h' with
    | literal h' =>
      rw [h.eq h' (Sexp.word.inj heq)]
      exact .literal _
    | _ => cases hform
  | unary hk hop he ih =>
    have hform := (Expr.Printable.unary hk hop he).form_eq h' heq
    cases h' with
    | unary hk' hop' he' =>
      simp only [Expr.sexp, Sexp.list.injEq, List.cons.injEq, Sexp.word.injEq, and_true] at heq
      exact .unary (hop.like hop' heq.1) (ih he' heq.2)
    | _ => cases hform
  | binary hl hk hop hr ihl ihr =>
    have hform := (Expr.Printable.binary hl hk hop hr).form_eq h' heq
    cases h' with
    | binary hl' hk' hop' hr' =>
      simp only [Expr.sexp, Sexp.list.injEq, List.cons.injEq, Sexp.word.injEq, and_true] at heq
      obtain ⟨hlexeme, hleft, hright⟩ := heq
      exact .binary (ihl hl' hleft) (hop.like hop' hlexeme) (ihr hr' hright)
    | _ => cases hform
  | logical hl hk hop hr ihl ihr =>
    have hform := (Expr.Printable.logical hl hk hop hr).form_eq h' heq
    cases h' with
    | logical hl' hk' hop' hr' =>
      simp only [Expr.sexp, Sexp.list.injEq, List.cons.injEq, Sexp.word.injEq, and_true] at heq
      obtain ⟨hlexeme, hleft, hright⟩ := heq
      exact .logical (ihl hl' hleft) (hop.like hop' hlexeme) (ihr hr' hright)
    | _ => cases hform
  | group he ih =>
    have hform := (Expr.Printable.group he).form_eq h' heq
    cases h' with
    | group he' =>
      simp only [Expr.sexp, Sexp.list.injEq, List.cons.injEq, and_true, true_and] at heq
      exact .group (ih he' heq)
    | _ => cases hform
  | @var ref name hn =>
    have hform := (@Expr.Printable.var ref name hn).form_eq h' heq
    cases h' with
    | var hn' => exact .var trivial (hn.like hn' (Sexp.word.inj heq))
    | _ => cases hform
  | @assign ref name e hn he ih =>
    have hform := (@Expr.Printable.assign ref name e hn he).form_eq h' heq
    cases h' with
    | assign hn' he' =>
      simp only [Expr.sexp, Sexp.list.injEq, List.cons.injEq, Sexp.word.injEq, and_true,
        true_and] at heq
      exact .assign trivial (hn.like hn' heq.1) (ih he' heq.2)
    | _ => cases hform
  | call he hp hargs ih ihs =>
    have hform := (Expr.Printable.call he hp hargs).form_eq h' heq
    cases h' with
    | call he' hp' hargs' =>
      simp only [Expr.sexp, Sexp.list.injEq, List.cons.injEq, true_and, Expr.sexps_eq_map] at heq
      exact .call (ih he' heq.1) (hp.like_of_kept hp' (by decide))
        (forall₂_of_map_eq (fun a ha a' ha' => ihs a ha (hargs' a' ha')) heq.2)
    | _ => cases hform
  | get ho hn ih =>
    have hform := (Expr.Printable.get ho hn).form_eq h' heq
    cases h' with
    | get ho' hn' =>
      simp only [Expr.sexp, Sexp.list.injEq, List.cons.injEq, Sexp.word.injEq, and_true,
        true_and] at heq
      exact .get (ih ho' heq.1) (hn.like hn' heq.2)
    | _ => cases hform
  | set ho hn he iho ihe =>
    have hform := (Expr.Printable.set ho hn he).form_eq h' heq
    cases h' with
    | set ho' hn' he' =>
      simp only [Expr.sexp, Sexp.list.injEq, List.cons.injEq, Sexp.word.injEq, and_true,
        true_and] at heq
      obtain ⟨⟨hobject, hname⟩, hvalue⟩ := heq
      exact .set (iho ho' hobject) (hn.like hn' hname) (ihe he' hvalue)
    | _ => cases hform
  | @this ref keyword hk =>
    have hform := (@Expr.Printable.this ref keyword hk).form_eq h' heq
    cases h' with
    | this hk' => exact .this trivial (hk.like_of_kept hk' (by decide))
    | _ => cases hform
  | @super ref keyword method hk hm =>
    have hform := (@Expr.Printable.super ref keyword method hk hm).form_eq h' heq
    cases h' with
    | super hk' hm' =>
      simp only [Expr.sexp, Sexp.list.injEq, List.cons.injEq, Sexp.word.injEq, and_true,
        true_and] at heq
      exact .super trivial (hk.like_of_kept hk' (by decide)) (hm.like hm' heq)
    | _ => cases hform

/-! ## Statements -/

/-- A name that may be left out can be told from what follows it. -/
theorem like_wordAfter {sign : String} {o o' : Option Token} {rest rest' : List Sexp}
    (h : ∀ t ∈ o, t.WrittenAs .identifier) (h' : ∀ t ∈ o', t.WrittenAs .identifier)
    (hr : rest.head? ≠ some (.word sign)) (hr' : rest'.head? ≠ some (.word sign))
    (heq : wordAfter sign o ++ rest = wordAfter sign o' ++ rest') :
    Option.Rel (Token.Like fun _ _ => True) o o' ∧ rest = rest' := by
  cases o with
  | none =>
    cases o' with
    | none => exact ⟨.none, heq⟩
    | some name' => exact absurd (congrArg List.head? heq) hr
  | some name =>
    cases o' with
    | none => exact absurd (congrArg List.head? heq).symm hr'
    | some name' =>
      simp only [wordAfter, List.cons_append, List.nil_append, List.cons.injEq, Sexp.word.injEq,
        true_and] at heq
      exact ⟨.some ((h name rfl).like (h' name' rfl) heq.1), heq.2⟩

theorem written_names {o : Option Superclass}
    (h : ∀ parent ∈ o, parent.name.WrittenAs .identifier) :
    ∀ t ∈ o.map (·.name), t.WrittenAs .identifier := by
  intro t ht
  obtain ⟨parent, hparent, rfl⟩ := Option.mem_map.mp ht
  exact h parent hparent

theorem like_superclass {o o' : Option Superclass}
    (h : Option.Rel (Token.Like fun _ _ => True) (o.map (·.name)) (o'.map (·.name))) :
    Option.Rel (Superclass.Like .any) o o' := by
  cases o with
  | none =>
    cases o' with
    | none => exact .none
    | some _ => cases h
  | some parent =>
    cases o' with
    | none => cases h
    | some parent' =>
      cases h with
      | some h => exact .some ⟨trivial, h⟩

theorem head?_methods (sign : String) (ds : List FunctionDecl) :
    (FunctionDecl.sexps ds).head? ≠ some (.word sign) := by
  cases ds <;> exact nofun

theorem head?_interface (o : Option Token) (ds : List FunctionDecl) :
    (wordAfter ":" o ++ FunctionDecl.sexps ds).head? ≠ some (.word "<") := by
  cases o with
  | none => exact head?_methods _ ds
  | some name => simp [wordAfter]

mutual

/-- **Printable statements with the same words and lists are alike.** -/
theorem Stmt.Printable.like : ∀ {st st' : Stmt}, st.Printable → st'.Printable →
    st.sexp = st'.sexp → st.Like .any st'
  | _, st', .expr he, h', heq => by
    cases h' with
    | expr he' =>
      simp only [Stmt.sexp, Sexp.list.injEq, List.cons.injEq, and_true, true_and] at heq
      exact .expr (he.like he' heq)
    | _ => simp [Stmt.sexp] at heq
  | _, st', .declare hn hinit, h', heq => by
    cases h' with
    | declare hn' hinit' =>
      simp only [Stmt.sexp, Sexp.list.injEq, List.cons.injEq, Sexp.word.injEq, true_and] at heq
      exact .declare (hn.like hn' heq.1)
        (rel_of_map_eq (fun e he e' he' => (hinit e he).like (hinit' e' he')) heq.2)
    | _ => simp [Stmt.sexp] at heq
  | _, st', .block h, h', heq => by
    cases h' with
    | block h' =>
      simp only [Stmt.sexp, Sexp.list.injEq, List.cons.injEq, true_and, Stmt.sexps_eq_map] at heq
      exact .block (forall₂_of_map_eq (fun st hst st' hst' => (h st hst).like (h' st' hst')) heq)
    | _ => simp [Stmt.sexp] at heq
  | _, st', .branch hc ht he, h', heq => by
    cases h' with
    | branch hc' ht' he' =>
      simp only [Stmt.sexp, Sexp.list.injEq, List.cons.injEq, true_and, Stmt.optional_eq] at heq
      obtain ⟨hcond, hthen, helse⟩ := heq
      exact .branch (hc.like hc' hcond) (ht.like ht' hthen)
        (rel_of_map_eq (fun st hst st' hst' => (he st hst).like (he' st' hst')) helse)
    | _ => simp [Stmt.sexp] at heq
  | _, st', .loop hc hb, h', heq => by
    cases h' with
    | loop hc' hb' =>
      simp only [Stmt.sexp, Sexp.list.injEq, List.cons.injEq, true_and, and_true] at heq
      exact .loop (hc.like hc' heq.1) (hb.like hb' heq.2)
    | _ => simp [Stmt.sexp] at heq
  | _, st', .function h, h', heq => by
    cases h' with
    | function h' =>
      simp only [Stmt.sexp, Sexp.list.injEq, List.cons.injEq, true_and] at heq
      exact .function (h.like h' heq)
    | _ => simp [Stmt.sexp] at heq
  | _, st', .ret hk hv, h', heq => by
    cases h' with
    | ret hk' hv' =>
      simp only [Stmt.sexp, Sexp.list.injEq, List.cons.injEq, true_and] at heq
      exact .ret (hk.like_of_kept hk' (by decide))
        (rel_of_map_eq (fun e he e' he' => (hv e he).like (hv' e' he')) heq)
    | _ => simp [Stmt.sexp] at heq
  | _, st', .classDecl hn hs hi hm, h', heq => by
    cases h' with
    | classDecl hn' hs' hi' hm' =>
      simp only [Stmt.sexp, ClassDecl.parts, Sexp.list.injEq, List.cons.injEq, Sexp.word.injEq,
        true_and] at heq
      obtain ⟨hname, hrest⟩ := heq
      obtain ⟨hsuperclass, hrest⟩ := like_wordAfter (written_names hs) (written_names hs')
        (head?_interface _ _) (head?_interface _ _) hrest
      obtain ⟨hinterface, hmethods⟩ := like_wordAfter hi hi' (head?_methods _ _)
        (head?_methods _ _) hrest
      rw [FunctionDecl.sexps_eq_map, FunctionDecl.sexps_eq_map] at hmethods
      refine .classDecl (.mk (hn.like hn' hname) (like_superclass hsuperclass) hinterface
        (forall₂_of_map_eq (fun d hd d' hd' e => (hm d hd).like (hm' d' hd') ?_) hmethods))
      exact (List.cons.inj (Sexp.list.inj e)).2
    | _ => simp [Stmt.sexp] at heq
termination_by structural _ _ h => h

theorem FunctionDecl.Printable.like : ∀ {d d' : FunctionDecl}, d.Printable → d'.Printable →
    d.parts = d'.parts → d.Like .any d'
  | _, _, .mk hn hp hb, .mk hn' hp' hb', heq => by
    simp only [FunctionDecl.parts, List.cons.injEq, Sexp.word.injEq, Sexp.list.injEq,
      Stmt.sexps_eq_map] at heq
    obtain ⟨hname, hparams, hbody⟩ := heq
    refine .mk (hn.like hn' hname)
      (forall₂_of_map_eq (fun p h p' h' e => (hp p h).like (hp' p' h') (Sexp.word.inj e)) hparams)
      (forall₂_of_map_eq (fun st hst st' hst' => (hb st hst).like (hb' st' hst')) hbody)
termination_by structural _ _ h => h

end

/-! ## Programs -/

theorem toList_programTree (program : List Stmt) :
    (programTree program).toList = Sexp.lines (program.map Stmt.sexp) := by
  rw [programTree, String.toList_intercalate, Sexp.lines_eq, List.map_map, List.map_map]
  exact congrArg _ (List.map_congr_left fun st _ => st.toList_tree)

/-- Printable programs with the same text are alike. -/
theorem like_of_programTree {program program' : List Stmt} (h : ∀ st ∈ program, st.Printable)
    (h' : ∀ st ∈ program', st.Printable) (heq : programTree program = programTree program') :
    Forall₂ (Stmt.Like .any) program program' := by
  have hlines : Sexp.lines (program.map Stmt.sexp) = Sexp.lines (program'.map Stmt.sexp) := by
    rw [← toList_programTree, ← toList_programTree, heq]
  have hsexps := Sexp.lines_inj (List.forall_mem_map.mpr fun st hst => (h st hst).legible)
    (List.forall_mem_map.mpr fun st hst => (h' st hst).legible) hlines
  exact forall₂_of_map_eq (fun st hst st' hst' => (h st hst).like (h' st' hst')) hsexps

/-- No string, and no number that is not finite. -/
def TokenKind.isPlain : TokenKind → Bool
  | symbol _ => true
  | string _ => false
  | number value => value.isFinite

theorem plain_tokens {source : String}
    (h : ∀ t ∈ (lex source).filterMap LexItem.token?, t.kind.isPlain = true) :
    ∀ t ∈ (lex source).filterMap LexItem.token?, t.Plain := by
  intro t ht
  have hplain := h t ht
  refine ⟨lexeme_of_token ht, fun value hkind => ?_, fun x hkind => ?_⟩
  · rw [hkind] at hplain
    cases hplain
  · rw [hkind] at hplain
    exact hplain

/-- **The printed tree determines the program.** Two texts, with or without errors, in which there is
no string and every number is finite: if the programs that are parsed from them have the same printed
form, the programs are the same but for the lines of their tokens and the identities of their
references. -/
theorem program_of_tree {source source' : String} {ref ref' : RefId}
    (h : ∀ t ∈ (lex source).filterMap LexItem.token?, t.kind.isPlain = true)
    (h' : ∀ t ∈ (lex source').filterMap LexItem.token?, t.kind.isPlain = true)
    (heq : programTree (parse ((lex source).filterMap LexItem.token?) ref).program =
      programTree (parse ((lex source').filterMap LexItem.token?) ref').program) :
    Forall₂ (Stmt.Like .any) (parse ((lex source).filterMap LexItem.token?) ref).program
      (parse ((lex source').filterMap LexItem.token?) ref').program :=
  like_of_programTree (parse_printable (plain_tokens h) ref) (parse_printable (plain_tokens h') ref')
    heq

/-- A condition, an assignment to a property and a subtraction of a negative number: once on one line,
once on several lines and behind a declaration that is not read. -/
theorem program_of_tree_spread :
    (∀ t ∈ (lex "if(a)a.b=1.5- -2;").filterMap LexItem.token?, t.kind.isPlain = true) ∧
      (∀ t ∈ (lex "let;if (a)\n a . b = 01.50 - - 2.0 ;").filterMap LexItem.token?,
        t.kind.isPlain = true) ∧
      programTree (parse ((lex "if(a)a.b=1.5- -2;").filterMap LexItem.token?) 0).program =
        programTree (parse ((lex "let;if (a)\n a . b = 01.50 - - 2.0 ;").filterMap
          LexItem.token?) 7).program ∧
      Forall₂ (Stmt.Like .any)
        (parse ((lex "if(a)a.b=1.5- -2;").filterMap LexItem.token?) 0).program
        (parse ((lex "let;if (a)\n a . b = 01.50 - - 2.0 ;").filterMap LexItem.token?) 7).program := by
  have h : ∀ t ∈ (lex "if(a)a.b=1.5- -2;").filterMap LexItem.token?, t.kind.isPlain = true := by
    decide +kernel
  have h' : ∀ t ∈ (lex "let;if (a)\n a . b = 01.50 - - 2.0 ;").filterMap LexItem.token?,
      t.kind.isPlain = true := by decide +kernel
  have heq : programTree (parse ((lex "if(a)a.b=1.5- -2;").filterMap LexItem.token?) 0).program =
      programTree (parse ((lex "let;if (a)\n a . b = 01.50 - - 2.0 ;").filterMap
        LexItem.token?) 7).program := by decide +kernel
  exact ⟨h, h', heq, program_of_tree h h' heq⟩

end Scriptlet
