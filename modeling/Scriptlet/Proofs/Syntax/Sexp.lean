import Scriptlet.Proofs.Lexer.Reference

/-!
# Lists in parentheses

Words and lists of words and lists, written with parentheses around a list and a blank between any two
of its parts. A word is not empty and contains no blank, parenthesis or newline, so that it ends where
the first of these follows; a list ends with its parenthesis. Hence a text says which words and lists
it was made from.

Results:
* `Sexp.chars_inj`: **a text is that of one word or list only**, whatever follows it.
* `Sexp.lines_inj`: lines of words and lists can be told apart.
-/

namespace Scriptlet

/-- A word, or a list of words and lists. -/
inductive Sexp where
  | word (text : String)
  | list (parts : List Sexp)

/-- What may stand behind a word, and the parenthesis before one. -/
def isDelimiter (c : Char) : Bool := c == ' ' || c == '(' || c == ')' || c == '\n'

theorem isDelimiter_cases {c : Char} (h : isDelimiter c = true) :
    c = ' ' ∨ c = '(' ∨ c = ')' ∨ c = '\n' := by
  simpa [isDelimiter, or_assoc] using h

/-- The text can be told from what follows it. -/
structure IsWord (text : String) : Prop where
  ne_nil : text.toList ≠ []
  plain : ∀ c ∈ text.toList, (!isDelimiter c) = true

instance (text : String) : Decidable (IsWord text) :=
  decidable_of_iff (text.toList ≠ [] ∧ text.toList.all (!isDelimiter ·) = true)
    ⟨fun h => ⟨h.1, List.all_eq_true.mp h.2⟩, fun h => ⟨h.ne_nil, List.all_eq_true.mpr h.plain⟩⟩

theorem IsWord.head {text : String} (h : IsWord text) :
    ∃ c rest, text.toList = c :: rest ∧ (!isDelimiter c) = true := by
  obtain ⟨c, rest, htext⟩ := List.exists_cons_of_ne_nil h.ne_nil
  exact ⟨c, rest, htext, h.plain c (htext ▸ List.mem_cons_self)⟩

namespace Sexp

mutual

def chars : Sexp → List Char
  | .word text => text.toList
  | .list parts => '(' :: inside parts
termination_by structural s => s

/-- A list behind its opening parenthesis. -/
def inside : List Sexp → List Char
  | [] => [')']
  | s :: ss => s.chars ++ further ss
termination_by structural ss => ss

/-- A list behind one of its parts. -/
def further : List Sexp → List Char
  | [] => [')']
  | s :: ss => ' ' :: (s.chars ++ further ss)
termination_by structural ss => ss

end

@[simp]
theorem chars_word (text : String) : (word text).chars = text.toList := rfl

@[simp]
theorem chars_list (parts : List Sexp) : (list parts).chars = '(' :: inside parts := rfl

@[simp]
theorem inside_cons (s : Sexp) (ss : List Sexp) : inside (s :: ss) = s.chars ++ further ss := rfl

@[simp]
theorem further_nil : further [] = [')'] := rfl

@[simp]
theorem further_cons (s : Sexp) (ss : List Sexp) :
    further (s :: ss) = ' ' :: (s.chars ++ further ss) := rfl

/-- All words can be told from what follows them. -/
inductive Legible : Sexp → Prop
  | word {text : String} (h : IsWord text) : Legible (.word text)
  | list {parts : List Sexp} (h : ∀ s ∈ parts, Legible s) : Legible (.list parts)

theorem legible_cons {s : Sexp} {ss : List Sexp} (h : s.Legible) (hs : ∀ s ∈ ss, s.Legible) :
    ∀ part ∈ s :: ss, part.Legible := List.forall_mem_cons.mpr ⟨h, hs⟩

theorem legible_nil : ∀ part ∈ ([] : List Sexp), part.Legible := List.forall_mem_nil _

/-- The text begins with no character that may stand in a word. -/
def Ends (rest : List Char) : Prop := Lexer.Stops (!isDelimiter ·) rest

theorem ends_of_cons {c : Char} (hc : isDelimiter c = true) (rest : List Char) :
    Ends (c :: rest) := by
  intro d hd
  cases hd
  exact congrArg (!·) hc

theorem ends_further (ss : List Sexp) (rest : List Char) : Ends (further ss ++ rest) := by
  cases ss with
  | nil => exact ends_of_cons rfl _
  | cons s ss => exact ends_of_cons rfl _

theorem Legible.head {s : Sexp} (h : s.Legible) : ∃ c rest, s.chars = c :: rest ∧ c ≠ ')' := by
  cases h with
  | word h =>
    obtain ⟨c, rest, htext, hc⟩ := h.head
    exact ⟨c, rest, htext, fun e => by cases e; cases hc⟩
  | @list parts _ => exact ⟨'(', inside parts, rfl, by decide⟩

theorem word_inj {text text' : String} {rest rest' : List Char} (h : IsWord text)
    (h' : IsWord text') (hr : Ends rest) (hr' : Ends rest')
    (heq : text.toList ++ rest = text'.toList ++ rest') : text = text' ∧ rest = rest' := by
  have htake := congrArg (List.takeWhile (!isDelimiter ·)) heq
  have hdrop := congrArg (List.dropWhile (!isDelimiter ·)) heq
  rw [Lexer.takeWhile_run h.plain hr, Lexer.takeWhile_run h'.plain hr'] at htake
  rw [Lexer.dropWhile_run h.plain hr, Lexer.dropWhile_run h'.plain hr'] at hdrop
  exact ⟨String.toList_inj.mp htake, hdrop⟩

/-- No word begins like a list. -/
theorem word_ne_list {text : String} {rest rest' : List Char} (h : IsWord text) :
    text.toList ++ rest ≠ '(' :: rest' := by
  obtain ⟨c, cs, htext, hc⟩ := h.head
  rw [htext]
  intro e
  obtain ⟨rfl, -⟩ := List.cons.inj e
  cases hc

/-- No part of a list begins like the end of the list. -/
theorem Legible.ne_end {s : Sexp} (h : s.Legible) (rest rest' : List Char) :
    s.chars ++ rest ≠ ')' :: rest' := by
  obtain ⟨c, cs, htext, hc⟩ := h.head
  rw [htext]
  exact fun e => hc (List.cons.inj e).1

mutual

/-- **A text is that of one word or list only**, whatever follows it. -/
theorem chars_inj : ∀ (s : Sexp) {s' : Sexp} {rest rest' : List Char}, s.Legible → s'.Legible →
    Ends rest → Ends rest' → s.chars ++ rest = s'.chars ++ rest' → s = s' ∧ rest = rest'
  | .word text, s', rest, rest', .word h, h', hr, hr', heq => by
    cases h' with
    | word h' =>
      obtain ⟨rfl, hrest⟩ := word_inj h h' hr hr' heq
      exact ⟨rfl, hrest⟩
    | list => exact absurd heq (word_ne_list h)
  | .list parts, s', rest, rest', .list h, h', _, _, heq => by
    cases h' with
    | word h' => exact absurd heq.symm (word_ne_list h')
    | list h' =>
      obtain ⟨rfl, hrest⟩ := inside_inj parts h h' (List.cons.inj heq).2
      exact ⟨rfl, hrest⟩
termination_by structural s => s

theorem inside_inj : ∀ (ss : List Sexp) {ss' : List Sexp} {rest rest' : List Char},
    (∀ s ∈ ss, s.Legible) → (∀ s ∈ ss', s.Legible) →
    inside ss ++ rest = inside ss' ++ rest' → ss = ss' ∧ rest = rest'
  | [], [], _, _, _, _, heq => ⟨rfl, (List.cons.inj heq).2⟩
  | [], s' :: ss', rest, rest', _, h', heq => by
    rw [inside, inside, List.append_assoc] at heq
    exact absurd heq.symm ((List.forall_mem_cons.mp h').1.ne_end _ _)
  | s :: ss, [], rest, rest', h, _, heq => by
    rw [inside, inside, List.append_assoc] at heq
    exact absurd heq ((List.forall_mem_cons.mp h).1.ne_end _ _)
  | s :: ss, s' :: ss', rest, rest', h, h', heq => by
    obtain ⟨hs, hss⟩ := List.forall_mem_cons.mp h
    obtain ⟨hs', hss'⟩ := List.forall_mem_cons.mp h'
    rw [inside, inside, List.append_assoc, List.append_assoc] at heq
    obtain ⟨rfl, hmore⟩ := chars_inj s hs hs' (ends_further _ _) (ends_further _ _) heq
    obtain ⟨rfl, hrest⟩ := further_inj ss hss hss' hmore
    exact ⟨rfl, hrest⟩
termination_by structural ss => ss

theorem further_inj : ∀ (ss : List Sexp) {ss' : List Sexp} {rest rest' : List Char},
    (∀ s ∈ ss, s.Legible) → (∀ s ∈ ss', s.Legible) →
    further ss ++ rest = further ss' ++ rest' → ss = ss' ∧ rest = rest'
  | [], [], _, _, _, _, heq => ⟨rfl, (List.cons.inj heq).2⟩
  | [], _ :: _, _, _, _, _, heq => absurd (List.cons.inj heq).1 (by decide)
  | _ :: _, [], _, _, _, _, heq => absurd (List.cons.inj heq).1 (by decide)
  | s :: ss, s' :: ss', rest, rest', h, h', heq => by
    obtain ⟨hs, hss⟩ := List.forall_mem_cons.mp h
    obtain ⟨hs', hss'⟩ := List.forall_mem_cons.mp h'
    rw [further, further, List.cons_append, List.cons_append, List.append_assoc,
      List.append_assoc] at heq
    obtain ⟨rfl, hmore⟩ := chars_inj s hs hs' (ends_further _ _) (ends_further _ _)
      (List.cons.inj heq).2
    obtain ⟨rfl, hrest⟩ := further_inj ss hss hss' hmore
    exact ⟨rfl, hrest⟩
termination_by structural ss => ss

end

/-! ## Lines -/

/-- Lines behind another one. -/
def linesBehind : List Sexp → List Char
  | [] => []
  | s :: ss => '\n' :: (s.chars ++ linesBehind ss)

/-- Words and lists, one on each line. -/
def lines : List Sexp → List Char
  | [] => []
  | s :: ss => s.chars ++ linesBehind ss

theorem ends_linesBehind (ss : List Sexp) : Ends (linesBehind ss) := by
  cases ss with
  | nil => exact nofun
  | cons s ss => exact ends_of_cons rfl _

theorem linesBehind_inj : ∀ {ss ss' : List Sexp}, (∀ s ∈ ss, s.Legible) → (∀ s ∈ ss', s.Legible) →
    linesBehind ss = linesBehind ss' → ss = ss'
  | [], [], _, _, _ => rfl
  | s :: ss, s' :: ss', h, h', heq => by
    obtain ⟨hs, hss⟩ := List.forall_mem_cons.mp h
    obtain ⟨hs', hss'⟩ := List.forall_mem_cons.mp h'
    obtain ⟨rfl, hmore⟩ := chars_inj s hs hs' (ends_linesBehind _) (ends_linesBehind _)
      (List.cons.inj heq).2
    rw [linesBehind_inj hss hss' hmore]

/-- **Lines can be told apart.** -/
theorem lines_inj : ∀ {ss ss' : List Sexp}, (∀ s ∈ ss, s.Legible) → (∀ s ∈ ss', s.Legible) →
    lines ss = lines ss' → ss = ss'
  | [], [], _, _, _ => rfl
  | [], s' :: ss', _, h', heq => by
    obtain ⟨c, cs, htext, -⟩ := (List.forall_mem_cons.mp h').1.head
    rw [lines, lines, htext] at heq
    cases heq
  | s :: ss, [], h, _, heq => by
    obtain ⟨c, cs, htext, -⟩ := (List.forall_mem_cons.mp h).1.head
    rw [lines, lines, htext] at heq
    cases heq
  | s :: ss, s' :: ss', h, h', heq => by
    obtain ⟨hs, hss⟩ := List.forall_mem_cons.mp h
    obtain ⟨hs', hss'⟩ := List.forall_mem_cons.mp h'
    obtain ⟨rfl, hmore⟩ := chars_inj s hs hs' (ends_linesBehind _) (ends_linesBehind _) heq
    rw [linesBehind_inj hss hss' hmore]

theorem lines_eq (ss : List Sexp) : lines ss = ['\n'].intercalate (ss.map chars) := by
  have hcons (s : Sexp) (ss : List Sexp) :
      s.chars ++ linesBehind ss = ['\n'].intercalate ((s :: ss).map chars) := by
    induction ss generalizing s with
    | nil => simp [linesBehind, List.intercalate]
    | cons s' ss ih =>
      rw [List.map_cons, List.map_cons, List.intercalate_cons_of_ne_nil (List.cons_ne_nil _ _),
        ← List.map_cons, ← ih]
      simp [linesBehind]
  cases ss with
  | nil => rfl
  | cons s ss => exact hcons s ss

end Sexp

end Scriptlet
