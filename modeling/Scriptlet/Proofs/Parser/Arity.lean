import Scriptlet.Proofs.Grammar.Accepting

/-!
# Lists in parentheses

The arguments of a call and the parameters of a function are read by one rule (`enclosed`), which
differs in how an entry is read and in what is said when there are too many. An *entry* of such a list
is what that rule has read between two commas: its tokens, its value and the errors that reading it
notes, nested lists included.

What a list reports itself must be told from what its entries report. That can be done because no rule
for expressions looks at the errors noted so far (`blindExpressions`): an entry notes the same errors
wherever in the list it stands, and whatever was noted before. So the errors of a list are those of its
entries, with one of the list's own before each entry that goes beyond the limit (`listErrors`).

Results:
* `blindExpressions`: errors are written and never read.
* `suffixes_call`, `function_eq`: **all calls, functions and methods read their lists by `enclosed`.**
* `enclosed_iff`: **a list can be read if its entries can**, however many there are; all of them are kept
  in their order, and the errors noted are `listErrors`.
* `length_listErrors`: of these, as many are the list's own as it has entries beyond the limit.
-/

namespace Scriptlet.Parser

variable {α β : Type}

/-! ## Errors are never read -/

/-- The state with other errors noted so far. -/
def State.noting (s : State) (errors : Array SyntaxError) : State := { s with errors }

/-- The state after other errors had been noted first. -/
def State.behind (earlier : Array SyntaxError) (s : State) : State :=
  { s with errors := earlier ++ s.errors }

def Result.behind (earlier : Array SyntaxError) : Result α → Result α
  | .ok a s => .ok a (s.behind earlier)
  | .fail e s => .fail e (s.behind earlier)
  | .exhausted => .exhausted

/-- **The action does not look at the errors noted so far**, it only adds to them. -/
def Blind (p : Parser α) : Prop := ∀ earlier s, p (s.behind earlier) = (p s).behind earlier

theorem State.behind_note (earlier : Array SyntaxError) (s : State) (e : SyntaxError) :
    (s.note e).behind earlier = (s.behind earlier).note e := by
  simp only [behind, note, Array.push_eq_append, Array.append_assoc]

theorem Blind.seq {p : Parser α} {f : α → Parser β} (hp : Blind p) (hf : ∀ a, Blind (f a)) :
    Blind (p >>= f) := by
  intro earlier s
  have hbehind := hp earlier s
  cases h : p s with
  | ok a t =>
    rw [h] at hbehind
    rw [bind_of_ok h, bind_of_ok hbehind]
    exact hf a earlier t
  | fail e t =>
    rw [h] at hbehind
    rw [bind_of_fail h, bind_of_fail hbehind]
    rfl
  | exhausted =>
    rw [h] at hbehind
    rw [bind_of_exhausted h, bind_of_exhausted hbehind]
    rfl

theorem blind_exhausted : Blind (exhausted : Parser α) := fun _ _ => rfl

theorem blind_pure (a : α) : Blind (pure a : Parser α) := fun _ _ => rfl

theorem blind_fail (fault : SyntaxFault) : Blind (fail fault : Parser α) := fun _ _ => rfl

theorem blind_freshRef : Blind freshRef := fun _ _ => rfl

theorem blind_sees (k : Symbol) : Blind (sees k) := fun _ _ => rfl

theorem blind_report (t : Token) (fault : SyntaxFault) : Blind (report t fault) := fun earlier s =>
  congrArg (Result.ok ()) (State.behind_note earlier s ⟨t, fault⟩).symm

theorem blind_reportHere (fault : SyntaxFault) : Blind (reportHere fault) := fun earlier s =>
  congrArg (Result.ok ()) (State.behind_note earlier s ⟨s.peek, fault⟩).symm

theorem blind_acceptIf (q : Token → Bool) : Blind (acceptIf q) := by
  intro earlier s
  cases h : s.rest with
  | nil => rw [acceptIf_nil h, acceptIf_nil (s := s.behind earlier) h]; rfl
  | cons t rest =>
    rw [acceptIf_cons h, acceptIf_cons (s := s.behind earlier) h]
    split_ifs <;> rfl

theorem blind_expect (k : Symbol) (fault : SyntaxFault) : Blind (expect k fault) :=
  (blind_acceptIf _).seq fun
    | some t => blind_pure t
    | none => blind_fail fault

theorem blind_optionally {c : Prop} [Decidable c] {o : Parser Unit} {p : Parser α} (ho : Blind o)
    (hp : Blind p) : Blind (if c then o >>= fun _ => p else p) := by
  split_ifs
  · exact ho.seq fun _ => hp
  · exact hp

theorem blind_superAccess (t : Token) : Blind (superAccess t) :=
  (blind_expect _ _).seq fun _ => (blind_expect _ _).seq fun _ =>
    blind_freshRef.seq fun _ => blind_pure _

theorem blind_lastLiteral : Blind lastLiteral := by
  intro earlier s
  unfold lastLiteral
  rw [show (s.behind earlier).last = s.last from rfl]
  split <;> rfl

/-- No rule for expressions looks at the errors noted so far. -/
structure BlindExpressions (n : Nat) : Prop where
  expression : Blind (expression n)
  level (l : Level) : Blind (level n l)
  operand (l : Level) : Blind (operand n l)
  more (l : Level) (e : Expr) : Blind (more n l e)
  unary : Blind (unary n)
  call : Blind (call n)
  suffixes (e : Expr) : Blind (suffixes n e)
  arguments (count : Nat) : Blind (arguments n count)
  primary : Blind (primary n)

theorem blind_primary {n : Nat} (ih : BlindExpressions n) : Blind (primary (n + 1)) := by
  intro earlier s
  unfold primary
  rw [show (s.behind earlier).rest = s.rest from rfl]
  split
  · exact blind_lastLiteral earlier s
  · next t rest _ =>
    dsimp only
    split
    · rfl
    · rfl
    · rfl
    · rfl
    · rfl
    · rfl
    · exact blind_superAccess t earlier (s.read t rest)
    · rfl
    · rfl
    · exact (ih.expression.seq fun _ => (blind_expect _ _).seq fun _ => blind_pure _) earlier
        (s.read t rest)
    · exact ih.call earlier (s.read t rest)
    · rfl

theorem blind_suffixes {n : Nat} (ih : BlindExpressions n) (e : Expr) :
    Blind (suffixes (n + 1) e) := by
  unfold suffixes
  refine (blind_acceptIf _).seq fun paren => ?_
  cases paren with
  | some _ =>
    refine (blind_sees _).seq fun empty => ?_
    cases empty with
    | true => exact (blind_pure _).seq fun _ => (blind_expect _ _).seq fun _ => ih.suffixes _
    | false => exact (ih.arguments 0).seq fun _ => (blind_expect _ _).seq fun _ => ih.suffixes _
  | none =>
    refine (blind_acceptIf _).seq fun dot => ?_
    cases dot with
    | some _ =>
      exact (blind_expect _ _).seq fun name =>
        blind_optionally (blind_report _ _) (ih.suffixes (.get e name))
    | none => exact blind_pure e

theorem blind_expression {n : Nat} (ih : BlindExpressions n) : Blind (expression (n + 1)) := by
  unfold expression
  refine (ih.level _).seq fun target => (blind_acceptIf _).seq fun equals => ?_
  cases equals with
  | none => exact blind_pure target
  | some _ =>
    refine ih.expression.seq fun value => ?_
    cases target
    case var => exact blind_freshRef.seq fun _ => blind_pure _
    case get => exact blind_pure _
    all_goals exact (blind_report _ _).seq fun _ => blind_pure _

/-- **No rule for expressions looks at the errors noted so far.** -/
theorem blindExpressions : ∀ n, BlindExpressions n
  | 0 =>
    { expression := blind_exhausted
      level := fun _ => blind_exhausted
      operand := fun _ => blind_exhausted
      more := fun _ _ => blind_exhausted
      unary := blind_exhausted
      call := blind_exhausted
      suffixes := fun _ => blind_exhausted
      arguments := fun _ => blind_exhausted
      primary := blind_exhausted }
  | n + 1 => by
    have ih := blindExpressions n
    refine ⟨blind_expression ih, fun l => ?_, fun l => ?_, fun l e => ?_, ?_, ?_,
      blind_suffixes ih, fun count => ?_, blind_primary ih⟩
    · unfold level
      exact (ih.operand l).seq fun left => ih.more l left
    · unfold operand
      cases l.tighter with
      | some l' => exact ih.level l'
      | none => exact ih.unary
    · unfold more
      refine (blind_acceptIf _).seq fun op => ?_
      cases op with
      | none => exact blind_pure e
      | some op => exact (ih.operand l).seq fun right => ih.more l _
    · unfold unary
      refine (blind_acceptIf _).seq fun op => ?_
      cases op with
      | some op => exact ih.unary.seq fun _ => blind_pure _
      | none => exact ih.call
    · unfold call
      exact ih.primary.seq fun callee => ih.suffixes callee
    · unfold arguments
      refine blind_optionally (blind_reportHere _) (ih.expression.seq fun arg =>
        (blind_acceptIf _).seq fun comma => ?_)
      cases comma with
      | some _ => exact (ih.arguments (count + 1)).seq fun _ => blind_pure _
      | none => exact blind_pure _

/-! ## Expressions read something -/

/-- If the action succeeds and there was a token to read, there are fewer tokens left than before. Where
none is left, an operand may be read without one (`lastLiteral`). -/
def Consumes (p : Parser α) : Prop := ∀ s a s', s.rest ≠ [] → p s = .ok a s' →
  s'.rest.length < s.rest.length

theorem Shortens.consumes {p : Parser α} (h : Shortens p) : Consumes p := fun s a s' _ => h s a s'

theorem Consumes.seq {p : Parser α} {f : α → Parser β} (hp : Consumes p)
    (hf : ∀ a, Forward (f a)) : Consumes (p >>= f) := by
  intro s b s' hs h
  obtain ⟨a, t, ht, hb⟩ := bind_eq_ok.mp h
  exact lt_of_le_of_lt ((hf a).length_le hb) (hp s a t hs ht)

/-- Where there is a token, an operand begins with it. -/
theorem consumes_primary : ∀ n, Consumes (primary n)
  | 0 => fun _ _ _ _ h => by cases h
  | n + 1 => by
    intro s a s' hs h
    obtain ⟨t, rest, hrest⟩ := List.exists_cons_of_ne_nil hs
    have hlt : (s.read t rest).rest.length < s.rest.length := length_read hrest
    have hR := grows_compatible
    have later {p : Parser Expr} (hp : Forward p) (h : p (s.read t rest) = .ok a s') :
        s'.rest.length < s.rest.length := lt_of_le_of_lt (hp.length_le h) hlt
    unfold primary at h
    rw [hrest] at h
    dsimp only at h
    split at h
    · exact later (hR.pure _) h
    · exact later (hR.pure _) h
    · exact later (hR.pure _) h
    · exact later (hR.pure _) h
    · exact later (hR.pure _) h
    · exact later (hR.pure _) h
    · exact later (hR.superAccess t) h
    · exact later (hR.seq hR.freshRef fun _ => hR.pure _) h
    · exact later (hR.seq hR.freshRef fun _ => hR.pure _) h
    · exact later ((forward_expression n).seq fun _ => hR.seq (hR.expect _ _) fun _ => hR.pure _) h
    · exact later (hR.expressionRules le_rfl).call h
    · cases h

theorem consumes_call : ∀ n, Consumes (call n)
  | 0 => fun _ _ _ _ h => by cases h
  | n + 1 => by
    unfold call
    exact (consumes_primary n).seq (grows_compatible.expressionRules le_rfl).suffixes

theorem consumes_unary : ∀ n, Consumes (unary n)
  | 0 => fun _ _ _ _ h => by cases h
  | n + 1 => by
    have hR := grows_compatible
    intro s a s' hs h
    unfold unary at h
    rcases acceptIf_cases (fun t => t.is .bang || t.is .minus) s with hq | ⟨t, rest, hrest, -, hq⟩
    · rw [bind_of_ok hq] at h
      exact consumes_call n s a s' hs h
    · rw [bind_of_ok hq] at h
      have hfwd : Forward (unary n >>= fun e => (pure (.unary t e) : Parser Expr)) :=
        hR.seq (hR.expressionRules le_rfl).unary fun _ => hR.pure _
      exact lt_of_le_of_lt (hfwd.length_le h) (length_read hrest)

theorem consumes_level : ∀ n l, Consumes (level n l)
  | 0, _ => fun _ _ _ _ h => by cases h
  | 1, _ => fun _ _ _ _ h => by cases h
  | n + 2, l => by
    unfold level operand
    have hfwd (left : Expr) : Forward (more (n + 1) l left) :=
      (grows_compatible.expressionRules le_rfl).more l left
    cases l.tighter with
    | some l' => exact (consumes_level n l').seq hfwd
    | none => exact (consumes_unary n).seq hfwd

theorem consumes_expression : ∀ n, Consumes (expression n)
  | 0 => fun _ _ _ _ h => by cases h
  | n + 1 => by
    have hR := grows_compatible
    unfold expression
    refine (consumes_level n .or).seq fun target => Forward.seq (hR.accept _) fun equals => ?_
    cases equals with
    | none => exact hR.pure target
    | some _ =>
      refine (forward_expression n).seq fun value => ?_
      cases target
      case var => exact hR.seq hR.freshRef fun _ => hR.pure _
      case get => exact hR.pure _
      all_goals exact hR.seq (hR.report _ _) fun _ => hR.pure _

/-! ## The rule for lists -/

theorem accept_eq_none {k : Symbol} {s : State} : accept k s = .ok none s ↔ s.sees k = false := by
  unfold accept State.sees
  cases h : s.rest with
  | nil => simp [acceptIf_nil h]
  | cons t rest =>
    rw [acceptIf_cons h]
    cases ht : t.is k <;> simp [ht]

section
variable (entry : Nat → Parser α) (fault unclosed : SyntaxFault)

/-- One entry or more, when `count` have been read. -/
def entries : Nat → Nat → Parser (List α)
  | 0, _ => exhausted
  | n + 1, count => do
    if maxArity ≤ count then reportHere fault
    let value ← entry n
    match ← accept .comma with
    | some _ => return value :: (← entries n (count + 1))
    | none => return [value]

/-- The entries of a list, of which there may be none, and the parenthesis that closes it. -/
def enclosed (n : Nat) : Parser (List α × Token) := do
  let values ← if ← sees .rightParen then pure [] else entries entry fault n 0
  let paren ← expect .rightParen unclosed
  return (values, paren)

end

/-- The arguments of a call. -/
def argumentList : Nat → Parser (List Expr × Token) :=
  enclosed expression .tooManyArguments .unclosedArguments

/-- A parameter, for which no step is needed. -/
def parameter (_ : Nat) : Parser Token := expect .identifier .noParameterName

/-- The parameters of a function or method. -/
def parameterList : Nat → Parser (List Token × Token) :=
  enclosed parameter .tooManyParameters .unclosedParameters

theorem arguments_eq (n count : Nat) :
    arguments n count = entries expression .tooManyArguments n count := by
  induction n generalizing count with
  | zero => rfl
  | succ n ih =>
    have hothers : entries expression .tooManyArguments n = arguments n := (funext ih).symm
    unfold entries
    rw [hothers]
    rfl

theorem parameters_eq (n count : Nat) :
    parameters n count = entries parameter .tooManyParameters n count := by
  induction n generalizing count with
  | zero => rfl
  | succ n ih =>
    have hothers : entries parameter .tooManyParameters n = parameters n := (funext ih).symm
    unfold entries
    rw [hothers]
    rfl

theorem seq_assoc {γ : Type} (p : Parser α) (f : α → Parser β) (g : β → Parser γ) :
    p >>= f >>= g = p >>= fun a => f a >>= g := by
  funext s
  show Parser.bind (Parser.bind p f) g s = Parser.bind p (fun a => Parser.bind (f a) g) s
  unfold Parser.bind
  cases p s <;> rfl

/-- What follows a list is told its values and its parenthesis. -/
theorem enclosed_seq (entry : Nat → Parser α) (fault unclosed : SyntaxFault) (n : Nat)
    (f : List α × Token → Parser β) :
    enclosed entry fault unclosed n >>= f = (do
      if ← sees .rightParen then
        let values ← pure []
        let paren ← expect .rightParen unclosed
        f (values, paren)
      else
        let values ← entries entry fault n 0
        let paren ← expect .rightParen unclosed
        f (values, paren)) := by
  unfold enclosed
  rw [seq_assoc]
  refine congrArg (sees .rightParen >>= ·) (funext fun empty => ?_)
  cases empty with
  | true => simp only [if_true, seq_assoc]; rfl
  | false => simp only [Bool.false_eq_true, if_false, seq_assoc]; rfl

/-- **Every call reads its arguments so**: they are what is between the parentheses after the callee. -/
theorem suffixes_call {s : State} {left : Token} {rest : List Token} (n : Nat) (callee : Expr)
    (hs : s.rest = left :: rest) (hleft : left.is .leftParen = true) :
    suffixes (n + 1) callee s =
      (argumentList n >>= fun list => suffixes n (.call callee list.2 list.1))
        (s.read left rest) := by
  unfold argumentList
  rw [enclosed_seq]
  simp only [← arguments_eq]
  conv_lhs => unfold suffixes
  rw [bind_of_ok (Grammar.accept_some hs hleft)]

/-- **Every function and every method reads its parameters so.** -/
theorem function_eq (n : Nat) (form : FunctionForm) :
    function (n + 1) form = (do
      let name ← expect .identifier (.noFunctionName form)
      let _ ← expect .leftParen (.noParameters form)
      let list ← parameterList n
      let _ ← expect .leftBrace (.noFunctionBody form)
      let body ← block n
      return ⟨name, list.1, body⟩) := by
  unfold function parameterList
  simp only [enclosed_seq, parameters_eq]

/-! ## Entries -/

/-- **What is read of a list between two commas**: the tokens, of which there is at least one, the
value, and the errors noted meanwhile. -/
structure Entry (α : Type) where
  first : Token
  more : List Token
  value : α
  errors : Array SyntaxError

/-- **The entry is read** in the first state, and the second is left. Its errors are all that are noted
when none had been. -/
def Entry.ReadBy (entry : Nat → Parser α) (e : Entry α) (s t : State) : Prop :=
  s.rest = e.first :: (e.more ++ t.rest) ∧
    ∃ n, entry n (s.noting #[]) = .ok e.value (t.noting e.errors)

/-- **Entries with commas between them**, and no comma after the last. The errors noted so far do not
matter. -/
inductive Listed (entry : Nat → Parser α) : State → List (Entry α) → State → Prop
  | last {s t e} (he : e.ReadBy entry s t) (hend : t.sees .comma = false) : Listed entry s [e] t
  | cons {s t u e comma rest es} (he : e.ReadBy entry s t) (ht : t.rest = comma :: rest)
      (hcomma : comma.is .comma = true) (h : Listed entry (t.read comma rest) es u) :
    Listed entry s (e :: es) u

/-- **Nothing or entries, and the parenthesis that closes the list.** -/
inductive Enclosed (entry : Nat → Parser α) : State → List (Entry α) → Token → State → Prop
  | none {s paren rest} (hs : s.rest = paren :: rest) (hparen : paren.is .rightParen = true) :
    Enclosed entry s [] paren (s.read paren rest)
  | some {s t paren rest es} (hopen : s.sees .rightParen = false) (h : Listed entry s es t)
      (ht : t.rest = paren :: rest) (hparen : paren.is .rightParen = true) :
    Enclosed entry s es paren (t.read paren rest)

/-- The errors of entries when so many of them are within the limit: before each of the others there is
one of the list's own, at the first token of the entry. -/
def errorsBeyond (fault : SyntaxFault) (within : Nat) (es : List (Entry α)) : List SyntaxError :=
  (es.take within).flatMap (·.errors.toList) ++
    (es.drop within).flatMap fun e => ⟨e.first, fault⟩ :: e.errors.toList

/-- **The errors of a list** in the order in which they are noted. -/
def listErrors (fault : SyntaxFault) (es : List (Entry α)) : List SyntaxError :=
  errorsBeyond fault maxArity es

/-- **The list's own errors are as many as it has entries beyond the limit**; the others are noted when
the entries are read. -/
theorem length_listErrors (fault : SyntaxFault) (es : List (Entry α)) :
    (listErrors fault es).length =
      (es.flatMap (·.errors.toList)).length + (es.length - maxArity) := by
  have hown (ds : List (Entry α)) :
      (ds.flatMap fun e => (⟨e.first, fault⟩ : SyntaxError) :: e.errors.toList).length =
        (ds.flatMap (·.errors.toList)).length + ds.length := by
    induction ds with
    | nil => rfl
    | cons d ds ih =>
      simp only [List.flatMap_cons, List.length_append, List.length_cons, ih]
      omega
  have hsplit := congrArg (fun ds : List (Entry α) => (ds.flatMap (·.errors.toList)).length)
    (List.take_append_drop maxArity es)
  simp only [List.flatMap_append, List.length_append] at hsplit
  unfold listErrors errorsBeyond
  rw [List.length_append, hown, List.length_drop, ← hsplit, Nat.add_assoc]

theorem errorsBeyond_cons (fault : SyntaxFault) (count : Nat) (e : Entry α) (es : List (Entry α)) :
    errorsBeyond fault (maxArity - count) (e :: es) =
      (if maxArity ≤ count then #[⟨e.first, fault⟩] else #[]).toList ++ e.errors.toList ++
        errorsBeyond fault (maxArity - (count + 1)) es := by
  unfold errorsBeyond
  split_ifs with h
  · rw [Nat.sub_eq_zero_of_le h, Nat.sub_eq_zero_of_le (Nat.le_succ_of_le h)]
    simp
  · rw [show maxArity - count = maxArity - (count + 1) + 1 by omega]
    simp

/-! ## Reading entries -/

/-- **What a list needs of the rule for its entries.** -/
structure EntryRule (entry : Nat → Parser α) : Prop where
  blind (n : Nat) : Blind (entry n)
  forward (n : Nat) : Forward (entry n)
  consumes (n : Nat) : Consumes (entry n)
  refines {n m : Nat} (h : n ≤ m) : Related (fun _ r r' => Refines r r') (entry n) (entry m)

theorem entryRule_expression : EntryRule expression where
  blind n := (blindExpressions n).expression
  forward := forward_expression
  consumes := consumes_expression
  refines h := (refines_compatible.expressionRules h).expression

theorem entryRule_parameter : EntryRule parameter where
  blind _ := blind_expect _ _
  forward _ := forward_expect _ _
  consumes _ := (shortens_expect _ _).consumes
  refines _ := refines_compatible.expect _ _

theorem Refines.ok {r r' : Result α} {a : α} {s : State} (h : Refines r r') (hr : r = .ok a s) :
    r' = .ok a s := by
  rcases h with h | h
  · rw [hr] at h
    cases h
  · rw [← h, hr]

theorem Blind.after {p : Parser α} (hp : Blind p) {s t : State} {a : α} {errors : Array SyntaxError}
    (h : p (s.noting #[]) = .ok a (t.noting errors)) (earlier : Array SyntaxError) :
    p (s.noting earlier) = .ok a (t.noting (earlier ++ errors)) := by
  have hbehind := hp earlier (s.noting #[])
  rw [h] at hbehind
  rwa [show (s.noting #[]).behind earlier = s.noting earlier from
    congrArg s.noting Array.append_empty] at hbehind

section
variable {entry : Nat → Parser α} {fault unclosed : SyntaxFault} {s t u : State}

/-- The state once it has been checked that the next entry is within the limit. -/
def State.checked (fault : SyntaxFault) (count : Nat) (s : State) : State :=
  if maxArity ≤ count then s.note ⟨s.peek, fault⟩ else s

theorem State.checked_noting (fault : SyntaxFault) (count : Nat) (s : State)
    (errors : Array SyntaxError) : (s.checked fault count).noting errors = s.noting errors := by
  unfold checked
  split_ifs <;> rfl

theorem State.checked_eq (fault : SyntaxFault) (count : Nat) {first : Token} {rest : List Token}
    (h : s.rest = first :: rest) :
    s.checked fault count =
      s.noting (s.errors ++ if maxArity ≤ count then #[⟨first, fault⟩] else #[]) := by
  unfold checked
  split_ifs
  · rw [show s.peek = first by unfold peek; rw [h]; rfl, note, Array.push_eq_append]
    rfl
  · rw [Array.append_empty]
    rfl

theorem entries_succ (n count : Nat) (s : State) :
    entries entry fault (n + 1) count s =
      (do
        let value ← entry n
        match ← accept .comma with
        | some _ => return value :: (← entries entry fault n (count + 1))
        | none => return [value]) (s.checked fault count) := by
  conv_lhs => unfold entries
  unfold State.checked
  split_ifs <;> rfl

/-- What an entry is, when its rule has read one. -/
theorem EntryRule.entry_of_ok (hE : EntryRule entry) {n : Nat} {value : α} (ht : t.rest ≠ [])
    (h : entry n s = .ok value t) :
    ∃ e : Entry α, e.value = value ∧ e.ReadBy entry s t ∧ t.errors = s.errors ++ e.errors := by
  have hsuffix : t.rest <:+ s.rest := by
    have := hE.forward n s
    rw [h] at this
    exact this.rest
  have hs : s.rest ≠ [] := fun hnil => ht (List.suffix_nil.mp (hnil ▸ hsuffix))
  obtain ⟨read, hread⟩ := hsuffix
  -- The tokens read are not none, since there are fewer left.
  have hlt := hE.consumes n s value t hs h
  obtain ⟨first, more, rfl⟩ : ∃ first more, read = first :: more := by
    cases read with
    | nil => rw [← hread] at hlt; exact absurd hlt (Nat.lt_irrefl _)
    | cons first more => exact ⟨first, more, rfl⟩
  -- Without the errors noted before, the rule ends with those it notes itself.
  have hblind := hE.blind n s.errors (s.noting #[])
  rw [show (s.noting #[]).behind s.errors = s from congrArg s.noting Array.append_empty,
    h] at hblind
  cases hown : entry n (s.noting #[]) with
  | ok value' t' =>
    rw [hown] at hblind
    cases hblind
    exact ⟨⟨first, more, value, t'.errors⟩, rfl, ⟨hread.symm, n, hown⟩, rfl⟩
  | fail e t' => rw [hown] at hblind; cases hblind
  | exhausted => rw [hown] at hblind; cases hblind

theorem Entry.ReadBy.of_checked {count : Nat} {e : Entry α}
    (h : e.ReadBy entry (s.checked fault count) t) : e.ReadBy entry s t := by
  obtain ⟨hrest, n, hread⟩ := h
  refine ⟨?_, n, by rwa [State.checked_noting] at hread⟩
  rw [← hrest]
  unfold State.checked
  split_ifs <;> rfl

/-- **The entries of a list that has been read**, by induction on the steps. -/
theorem EntryRule.listed_of_ok (hE : EntryRule entry) {n count : Nat} {values : List α}
    (ht : t.rest ≠ []) (h : entries entry fault n count s = .ok values t) :
    ∃ es, Listed entry s es t ∧ values = es.map (·.value) ∧
      t.errors.toList = s.errors.toList ++ errorsBeyond fault (maxArity - count) es := by
  induction n generalizing s count values with
  | zero => cases h
  | succ n ih =>
    rw [entries_succ] at h
    obtain ⟨value, u, hvalue, h⟩ := bind_eq_ok.mp h
    -- The first entry, and what is noted until it is read.
    have head (hu : u.rest ≠ []) : ∃ e : Entry α, e.value = value ∧ e.ReadBy entry s u ∧
        ∀ es, s.errors.toList ++ errorsBeyond fault (maxArity - count) (e :: es) =
          u.errors.toList ++ errorsBeyond fault (maxArity - (count + 1)) es := by
      obtain ⟨e, rfl, he, herrors⟩ := hE.entry_of_ok hu hvalue
      have he := he.of_checked
      refine ⟨e, rfl, he, fun es => ?_⟩
      rw [herrors, State.checked_eq fault count he.1, errorsBeyond_cons]
      simp only [State.noting, Array.toList_append, List.append_assoc]
    rcases acceptIf_cases (·.is .comma) u with hcomma | ⟨comma, rest, hu, hcomma, hread⟩
    · rw [bind_of_ok (p := accept .comma) hcomma] at h
      cases h
      obtain ⟨e, rfl, he, herrors⟩ := head ht
      refine ⟨[e], .last he (accept_eq_none.mp hcomma), rfl, ?_⟩
      rw [herrors]
      simp [errorsBeyond]
    · rw [bind_of_ok (p := accept .comma) hread] at h
      obtain ⟨others, t', hothers, h⟩ := bind_eq_ok.mp h
      cases h
      obtain ⟨es, hes, rfl, herrors'⟩ := ih hothers
      obtain ⟨e, rfl, he, herrors⟩ := head (by rw [hu]; exact List.cons_ne_nil _ _)
      refine ⟨e :: es, .cons he hu hcomma hes, rfl, ?_⟩
      rw [herrors', herrors]
      rfl

/-- An entry is read in the same way whatever has been noted before, with any number of steps that is
enough. -/
theorem EntryRule.ok (hE : EntryRule entry) {e : Entry α} (h : e.ReadBy entry s t)
    (earlier : Array SyntaxError) :
    ∃ n, ∀ m, n ≤ m →
      entry m (s.noting earlier) = .ok e.value (t.noting (earlier ++ e.errors)) := by
  obtain ⟨-, n, hread⟩ := h
  exact ⟨n, fun m hm => (hE.refines hm _).ok ((hE.blind n).after hread earlier)⟩

theorem EntryRule.refines_entries (hE : EntryRule entry) : ∀ {n m : Nat}, n ≤ m → ∀ count,
    Related (fun _ r r' => Refines r r') (entries entry fault n count) (entries entry fault m count)
  | 0, _, _, _ => fun s => refines_compatible.exhausted s _
  | n + 1, m + 1, hnm, count => by
    have hR := refines_compatible
    have hle : n ≤ m := Nat.le_of_succ_le_succ hnm
    unfold entries
    refine hR.optionally _ (hR.reportHere _) (hR.seq (hE.refines hle) fun value =>
      hR.seq (hR.accept _) fun comma => ?_)
    cases comma with
    | some _ => exact hR.seq (hE.refines_entries hle _) fun _ => hR.pure _
    | none => exact hR.pure _

/-- **Entries that can each be read are read as a list**, by induction on the entries: no number of them
is too large. -/
theorem EntryRule.ok_of_listed (hE : EntryRule entry) {es : List (Entry α)}
    (h : Listed entry s es t) (count : Nat) (earlier : Array SyntaxError) :
    ∃ n, entries entry fault n count (s.noting earlier) = .ok (es.map (·.value))
      (t.noting (earlier ++ (errorsBeyond fault (maxArity - count) es).toArray)) := by
  induction h generalizing count earlier with
  | @last s t e he hend =>
    obtain ⟨n, hn⟩ := hE.ok he (earlier ++ if maxArity ≤ count then #[⟨e.first, fault⟩] else #[])
    have hnone (errors : Array SyntaxError) :
        accept .comma (t.noting errors) = .ok none (t.noting errors) := accept_eq_none.mpr hend
    refine ⟨n + 1, ?_⟩
    rw [entries_succ, State.checked_eq (s := s.noting earlier) fault count he.1]
    refine (bind_of_ok (hn n le_rfl)).trans ((bind_of_ok (hnone _)).trans ?_)
    refine congrArg (fun errors => Result.ok [e.value] (t.noting errors)) (Array.toList_inj.mp ?_)
    rw [errorsBeyond_cons]
    simp [errorsBeyond]
  | @cons s t u e comma rest es he ht hcomma h ih =>
    obtain ⟨n, hn⟩ := hE.ok he (earlier ++ if maxArity ≤ count then #[⟨e.first, fault⟩] else #[])
    obtain ⟨n', hn'⟩ := ih (count + 1)
      (earlier ++ (if maxArity ≤ count then #[⟨e.first, fault⟩] else #[]) ++ e.errors)
    have hothers := (hE.refines_entries (le_max_right n n') _ _).ok hn'
    have hread (errors : Array SyntaxError) : accept .comma (t.noting errors) =
        .ok (some comma) ((t.read comma rest).noting errors) := Grammar.accept_some ht hcomma
    refine ⟨max n n' + 1, ?_⟩
    rw [entries_succ, State.checked_eq (s := s.noting earlier) fault count he.1]
    refine (bind_of_ok (hn _ (le_max_left n n'))).trans
      ((bind_of_ok (hread _)).trans ((bind_of_ok hothers).trans ?_))
    refine congrArg (fun errors => Result.ok (e.value :: es.map (·.value)) (u.noting errors))
      (Array.toList_inj.mp ?_)
    rw [errorsBeyond_cons]
    simp only [Array.toList_append, List.append_assoc]

theorem enclosed_eq_ok {n : Nat} {values : List α} {paren : Token} :
    enclosed entry fault unclosed n s = .ok (values, paren) t ↔
      ∃ u rest, (if s.sees .rightParen then values = [] ∧ u = s
          else entries entry fault n 0 s = .ok values u) ∧
        u.rest = paren :: rest ∧ paren.is .rightParen = true ∧ t = u.read paren rest := by
  have hclosed (vs : List α) (u : State) :
      (expect .rightParen unclosed >>= fun p => pure (vs, p)) u = .ok (values, paren) t ↔
        vs = values ∧ ∃ rest, u.rest = paren :: rest ∧ paren.is .rightParen = true ∧
          t = u.read paren rest := by
    rw [bind_eq_ok]
    constructor
    · rintro ⟨p, t', hp, h⟩
      cases h
      exact ⟨rfl, Grammar.expect_eq_ok.mp hp⟩
    · rintro ⟨rfl, h⟩
      exact ⟨paren, t, Grammar.expect_eq_ok.mpr h, rfl⟩
  unfold enclosed
  rw [bind_of_ok (show sees .rightParen s = .ok (s.sees .rightParen) s from rfl)]
  cases s.sees .rightParen with
  | true =>
    refine (hclosed [] s).trans ⟨?_, ?_⟩
    · rintro ⟨rfl, rest, h⟩
      exact ⟨s, rest, ⟨rfl, rfl⟩, h⟩
    · rintro ⟨_, rest, ⟨rfl, rfl⟩, h⟩
      exact ⟨rfl, rest, h⟩
  | false =>
    refine bind_eq_ok.trans ⟨?_, ?_⟩
    · rintro ⟨vs, u, hvs, h⟩
      obtain ⟨rfl, rest, h⟩ := (hclosed vs u).mp h
      exact ⟨u, rest, hvs, h⟩
    · rintro ⟨u, rest, hvs, h⟩
      exact ⟨values, u, hvs, (hclosed values u).mpr ⟨rfl, rest, h⟩⟩

/-- **What a list in parentheses is and what it reports.** It can be read, with enough steps, just when
its entries can, each from where the one before has ended, and a parenthesis closes it. All entries are
kept in their order, however many they are. The errors noted are those of the entries, which each would
note if nothing stood before it, and before those of each entry from the 256th on one of the list's own,
at its first token. -/
theorem enclosed_iff (hE : EntryRule entry) {values : List α} {paren : Token} :
    (∃ n, enclosed entry fault unclosed n s = .ok (values, paren) t) ↔
      ∃ es, Enclosed entry s es paren t ∧ values = es.map (·.value) ∧
        t.errors.toList = s.errors.toList ++ listErrors fault es := by
  simp only [enclosed_eq_ok]
  constructor
  · rintro ⟨n, u, rest, hvalues, hu, hparen, rfl⟩
    split_ifs at hvalues with hopen
    · obtain ⟨rfl, rfl⟩ := hvalues
      exact ⟨[], .none hu hparen, rfl, (List.append_nil _).symm⟩
    · obtain ⟨es, hes, rfl, herrors⟩ := hE.listed_of_ok (by simp [hu]) hvalues
      exact ⟨es, .some (Bool.eq_false_iff.mpr hopen) hes hu hparen, rfl, herrors⟩
  · rintro ⟨es, hes, rfl, herrors⟩
    cases hes with
    | none hs hparen =>
      refine ⟨0, s, _, ?_, hs, hparen, rfl⟩
      rw [if_pos (by unfold State.sees; rw [hs]; exact hparen)]
      exact ⟨rfl, rfl⟩
    | some hopen h hu hparen =>
      rename_i u _
      obtain ⟨n, hn⟩ : ∃ n, entries entry fault n 0 (s.noting s.errors) = _ :=
        hE.ok_of_listed h 0 s.errors
      refine ⟨n, u, _, ?_, hu, hparen, rfl⟩
      rw [if_neg (Bool.eq_false_iff.mp hopen)]
      have hnoted : s.errors ++ (listErrors fault es).toArray = u.errors := by
        rw [← Array.toList_inj, Array.toList_append]
        exact herrors.symm
      exact hn.trans (congrArg (fun errors => Result.ok _ (u.noting errors)) hnoted)

/-! ## Parameters -/

/-- A parameter is its only token, and nothing is noted when it is read. -/
theorem Entry.ReadBy.parameter {e : Entry Token} (h : e.ReadBy parameter s t) :
    e.value = e.first ∧ e.more = [] ∧ e.errors = #[] := by
  obtain ⟨hrest, n, hread⟩ := h
  obtain ⟨rest, hs, -, ht⟩ := Grammar.expect_eq_ok.mp hread
  have htail : t.rest = rest := congrArg State.rest ht
  have hcons : e.first :: (e.more ++ t.rest) = e.value :: t.rest :=
    hrest.symm.trans (htail ▸ hs)
  obtain ⟨hfirst, hmore⟩ := List.cons.inj hcons
  exact ⟨hfirst.symm, List.append_left_eq_self.mp hmore, congrArg State.errors ht⟩

theorem Listed.parameters {es : List (Entry Token)} (h : Listed parameter s es t) :
    ∀ e ∈ es, e.value = e.first ∧ e.errors = #[] := by
  induction h with
  | last he _ => exact List.forall_mem_singleton.mpr ⟨he.parameter.1, he.parameter.2.2⟩
  | cons he _ _ _ ih => exact List.forall_mem_cons.mpr ⟨⟨he.parameter.1, he.parameter.2.2⟩, ih⟩

/-- **Parameters cause no other errors than those of the list**: one at each from the 256th on. -/
theorem Enclosed.listErrors_parameters {es : List (Entry Token)} {paren : Token}
    (h : Enclosed parameter s es paren t) (fault : SyntaxFault) :
    listErrors fault es = ((es.map (·.value)).drop maxArity).map fun p => ⟨p, fault⟩ := by
  have hes : ∀ e ∈ es, e.value = e.first ∧ e.errors = #[] := by
    cases h with
    | none => exact List.forall_mem_nil _
    | some _ h _ _ => exact h.parameters
  have hsilent : ∀ ds ⊆ es, ds.flatMap (·.errors.toList) = [] := fun ds hds =>
    List.flatMap_eq_nil_iff.mpr fun e he => by rw [(hes e (hds he)).2]
  have hown : ∀ ds ⊆ es, (ds.flatMap fun e => (⟨e.first, fault⟩ : SyntaxError) :: e.errors.toList) =
      (ds.map (·.value)).map fun p => ⟨p, fault⟩ := by
    intro ds hds
    induction ds with
    | nil => rfl
    | cons d ds ih =>
      obtain ⟨hd, hds⟩ := List.cons_subset.mp hds
      simp [ih hds, (hes d hd).1, (hes d hd).2]
  unfold listErrors errorsBeyond
  rw [hsilent _ (List.take_subset _ _), hown _ (List.drop_subset _ _), List.nil_append,
    List.map_drop]

end

end Scriptlet.Parser
