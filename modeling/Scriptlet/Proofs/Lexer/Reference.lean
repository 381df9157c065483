import Scriptlet.Proofs.Lexer
import Mathlib.Data.List.TakeWhile

/-!
# The lexical rules

What the pieces of a text are, said without a lexer: `Lexeme` lists the texts that are one piece by
themselves, and at every point of a text the longest candidate is taken (`Longest`). Where no lexeme
can begin, one character is at fault; a quote that is never followed by another is at fault up to the
end. `Reading` goes through a text in this way and gives every item the line on which its piece ends.

Results:
* `longest_iff`: **`Piece.cut` takes the longest candidate**, and there is only one.
* `reading_iff`: **a text can be read in one way only**, which is what `pieces` and `lex` do.
* `texts_of_reading`: the texts of all pieces make up the text.
* `items_of_reading`: the end of the text is the last item and no other one.
-/

namespace Scriptlet.Lexer

/-! ## The rules -/

/-- Punctuation marks and operators. -/
def operators : List (List Char × Symbol) :=
  [(['('], .leftParen), ([')'], .rightParen), (['{'], .leftBrace), (['}'], .rightBrace),
   ([','], .comma), (['.'], .dot), (['-'], .minus), (['+'], .plus), ([';'], .semicolon),
   (['/'], .slash), (['*'], .star), (['!'], .bang), (['!', '='], .bangEqual), (['='], .equal),
   (['=', '='], .equalEqual), (['>'], .greater), (['>', '='], .greaterEqual), (['<'], .less),
   (['<', '='], .lessEqual), (['&'], .ampersand), (['&', '&'], .ampersandAmpersand), (['|'], .pipe),
   (['|', '|'], .pipePipe)]

/-- **The text is one piece by itself**, of this kind. -/
inductive Lexeme : PieceKind → List Char → Prop
  | blank {c : Char} (h : c = ' ' ∨ c = '\r' ∨ c = '\t') : Lexeme .skipped [c]
  | newline : Lexeme .skipped ['\n']
  | comment {body : List Char} (h : '\n' ∉ body) : Lexeme .skipped ('/' :: '/' :: body)
  | operator {text : List Char} {symbol : Symbol} (h : (text, symbol) ∈ operators) :
    Lexeme (.token (.symbol symbol)) text
  | integer {digits : List Char} (hne : digits ≠ []) (h : ∀ c ∈ digits, isDigit c = true) :
    Lexeme (.token (.number (Number.ofDigits digits []))) digits
  | decimal {whole fraction : List Char} (hw : whole ≠ []) (hwhole : ∀ c ∈ whole, isDigit c = true)
      (hf : fraction ≠ []) (hfraction : ∀ c ∈ fraction, isDigit c = true) :
    Lexeme (.token (.number (Number.ofDigits whole fraction))) (whole ++ '.' :: fraction)
  | word {c : Char} {rest : List Char} (hc : isWordStart c = true)
      (h : ∀ d ∈ rest, isWordChar d = true) :
    Lexeme (.token (.symbol (Symbol.ofWord (String.ofList (c :: rest))))) (c :: rest)
  | string {body : List Char} (h : '"' ∉ body) :
    Lexeme (.token (.string (String.ofList body))) ('"' :: (body ++ ['"']))

/-- **What may be taken off the front of a text.** -/
inductive Candidate : List Char → PieceKind → List Char → Prop
  | lexeme {kind : PieceKind} {text rest : List Char} (h : Lexeme kind text) :
    Candidate (text ++ rest) kind text
  /-- A character that no lexeme begins with. -/
  | unexpected {c : Char} {rest : List Char} (h : ∀ kind text, ¬ Lexeme kind (c :: text)) :
    Candidate (c :: rest) (.fault (.unexpected c)) [c]
  /-- A string that is never closed, up to the end. -/
  | unterminated {body : List Char} (h : '"' ∉ body) :
    Candidate ('"' :: body) (.fault .unterminatedString) ('"' :: body)

/-- **The piece is the longest that may be taken off the front of the text.** -/
structure Longest (source : List Char) (p : Piece) : Prop where
  candidate : Candidate source p.kind p.text
  longest (kind : PieceKind) (text : List Char) : Candidate source kind text →
    text.length ≤ p.text.length

/-- The line after a text that begins on line one. -/
def lineAfter (text : List Char) : Nat := 1 + text.count '\n'

/-- **The rest of a text is read**, after what comes before it: the pieces and the items they yield,
each with the line on which its piece ends, and the end of the text as last item. -/
inductive Reading : List Char → List Char → List Piece → List LexItem → Prop
  | done (before : List Char) :
    Reading before [] [] [.token ⟨.symbol .endOfText, "", lineAfter before⟩]
  | piece {before rest : List Char} {p : Piece} {ps : List Piece} {items : List LexItem}
      (hp : Longest (p.text ++ rest) p) (h : Reading (before ++ p.text) rest ps items) :
    Reading before (p.text ++ rest) (p :: ps)
      ((p.item? (lineAfter (before ++ p.text))).toList ++ items)

/-! ## Operators -/

theorem mem_operators_of_single {c : Char} {symbol : Symbol} (h : single? c = some symbol) :
    ([c], symbol) ∈ operators := by
  unfold single? at h
  split at h <;> cases h <;> decide

theorem mem_operators_of_double {c second : Char} {short long : Symbol}
    (h : double? c = some (short, second, long)) :
    ([c], short) ∈ operators ∧ ([c, second], long) ∈ operators := by
  unfold double? at h
  split at h <;> cases h <;> decide

/-- An operator is a symbol of its own, the slash, or a short or long form of a double symbol. -/
theorem operator_cases {text : List Char} {symbol : Symbol} (h : (text, symbol) ∈ operators) :
    (text = ['/'] ∧ symbol = .slash) ∨ ∃ c,
      (single? c = some symbol ∧ text = [c]) ∨
      ∃ short second long, single? c = none ∧ double? c = some (short, second, long) ∧
        (text = [c] ∧ symbol = short ∨ text = [c, second] ∧ symbol = long) := by
  simp only [operators, List.mem_cons, Prod.mk.injEq, List.not_mem_nil, or_false] at h
  rcases h with ⟨rfl, rfl⟩ | ⟨rfl, rfl⟩ | ⟨rfl, rfl⟩ | ⟨rfl, rfl⟩ | ⟨rfl, rfl⟩ | ⟨rfl, rfl⟩ |
    ⟨rfl, rfl⟩ | ⟨rfl, rfl⟩ | ⟨rfl, rfl⟩ | ⟨rfl, rfl⟩ | ⟨rfl, rfl⟩ | ⟨rfl, rfl⟩ | ⟨rfl, rfl⟩ |
    ⟨rfl, rfl⟩ | ⟨rfl, rfl⟩ | ⟨rfl, rfl⟩ | ⟨rfl, rfl⟩ | ⟨rfl, rfl⟩ | ⟨rfl, rfl⟩ | ⟨rfl, rfl⟩ |
    ⟨rfl, rfl⟩ | ⟨rfl, rfl⟩ | ⟨rfl, rfl⟩
  all_goals first
    | exact .inl ⟨rfl, rfl⟩
    | exact .inr ⟨_, .inl ⟨rfl, rfl⟩⟩
    | exact .inr ⟨_, .inr ⟨_, _, _, rfl, rfl, .inl ⟨rfl, rfl⟩⟩⟩
    | exact .inr ⟨_, .inr ⟨_, _, _, rfl, rfl, .inr ⟨rfl, rfl⟩⟩⟩

/-! ## Runs of characters -/

/-- The text begins with no character that satisfies `p`. -/
def Stops (p : Char → Bool) (text : List Char) : Prop := ∀ c ∈ text.head?, p c = false

section
variable {p : Char → Bool} {run rest : List Char}

theorem takeWhile_run (hrun : ∀ c ∈ run, p c = true) (hrest : Stops p rest) :
    (run ++ rest).takeWhile p = run := by
  have hnone : rest.takeWhile p = [] := by
    cases rest with
    | nil => rfl
    | cons c cs => simp [hrest c rfl]
  rw [List.takeWhile_append_of_pos hrun, hnone, List.append_nil]

theorem dropWhile_run (hrun : ∀ c ∈ run, p c = true) (hrest : Stops p rest) :
    (run ++ rest).dropWhile p = rest := by
  have hsplit := List.takeWhile_append_dropWhile (p := p) (l := run ++ rest)
  rw [takeWhile_run hrun hrest] at hsplit
  exact List.append_cancel_left hsplit

theorem run_of_not_mem {x : Char} (h : x ∉ run) : ∀ c ∈ run, (c != x) = true := by
  intro c hc
  refine bne_iff_ne.mpr fun e => h ?_
  rw [← e]
  exact hc

/-- Every text begins with a run of characters that satisfy `p`, perhaps an empty one. -/
theorem exists_run (p : Char → Bool) (text : List Char) :
    ∃ run rest, text = run ++ rest ∧ (∀ c ∈ run, p c = true) ∧ Stops p rest := by
  refine ⟨text.takeWhile p, text.dropWhile p, List.takeWhile_append_dropWhile.symm,
    fun _ => List.mem_takeWhile_imp, fun c hc => ?_⟩
  cases hdrop : text.dropWhile p with
  | nil =>
    rw [hdrop] at hc
    cases hc
  | cons d ds =>
    have hd := List.head_dropWhile_not p (l := text) (by simp [hdrop])
    rw [hdrop] at hc
    cases hc
    simpa only [hdrop, List.head_cons] using hd

/-- No run is longer than the one that stops. -/
theorem length_le_of_run {run' rest' : List Char} (h : run' ++ rest' = run ++ rest)
    (hrun' : ∀ c ∈ run', p c = true) (hrun : ∀ c ∈ run, p c = true) (hrest : Stops p rest) :
    run'.length ≤ run.length := by
  have hprefix : run' ++ rest'.takeWhile p = run := by
    rw [← takeWhile_run hrun hrest, ← h, List.takeWhile_append_of_pos hrun']
  rw [← hprefix, List.length_append]
  exact Nat.le_add_right _ _

end

/-! ## The first character decides -/

theorem cut_space {c : Char} (h : isBlank c = true ∨ c = '\n') (rest : List Char) :
    Piece.cut c rest = ⟨.skipped, [c]⟩ := by
  unfold Piece.cut
  rw [if_pos (by simpa using h)]

theorem cut_slash (rest : List Char) : Piece.cut '/' rest = cutSlash rest := rfl

theorem cut_quote (rest : List Char) : Piece.cut '"' rest = cutString rest := rfl

theorem cut_digit {c : Char} (h : isDigit c = true) (rest : List Char) :
    Piece.cut c rest = cutNumber c rest := by
  have hne (d : Char) (hd : isDigit d = false) : c ≠ d := fun e => by
    rw [← e, h] at hd
    cases hd
  have hspace : (isBlank c || c == '\n') = false := by
    simp [isBlank, hne ' ' rfl, hne '\r' rfl, hne '\t' rfl, hne '\n' rfl]
  simp [Piece.cut, hspace, hne '/' rfl, hne '"' rfl, h]

theorem cut_letter {c : Char} (h : isWordStart c = true) (rest : List Char) :
    Piece.cut c rest = cutWord c rest := by
  have hne (d : Char) (hd : isWordStart d = false) : c ≠ d := fun e => by
    rw [← e, h] at hd
    cases hd
  have hspace : (isBlank c || c == '\n') = false := by
    simp [isBlank, hne ' ' rfl, hne '\r' rfl, hne '\t' rfl, hne '\n' rfl]
  have hdigit : isDigit c = false := by
    refine Bool.eq_false_iff.mpr fun hd => ?_
    simp only [isDigit, isWordStart, Bool.and_eq_true, Bool.or_eq_true, decide_eq_true_eq,
      beq_iff_eq] at hd h
    rcases h with (⟨hlow, -⟩ | ⟨hlow, -⟩) | rfl
    · exact absurd (Char.le_trans hlow hd.2) (by decide)
    · exact absurd (Char.le_trans hlow hd.2) (by decide)
    · exact absurd hd.2 (by decide)
  simp [Piece.cut, hspace, hne '/' rfl, hne '"' rfl, hdigit, h]

theorem cut_single {c : Char} {symbol : Symbol} (h : single? c = some symbol) (rest : List Char) :
    Piece.cut c rest = symbolPiece symbol [c] := by
  unfold single? at h
  split at h <;> cases h <;> rfl

theorem cut_double {c second : Char} {short long : Symbol}
    (h : double? c = some (short, second, long)) (rest : List Char) :
    Piece.cut c rest =
      if rest.head? = some second then symbolPiece long [c, second]
      else symbolPiece short [c] := by
  unfold double? at h
  split at h <;> cases h <;> rfl

/-- No rule knows the character. -/
structure Unknown (c : Char) : Prop where
  space : (isBlank c || c == '\n') = false
  slash : c ≠ '/'
  quote : c ≠ '"'
  digit : isDigit c = false
  letter : isWordStart c = false
  single : single? c = none
  double : double? c = none

theorem Unknown.cut {c : Char} (h : Unknown c) (rest : List Char) :
    Piece.cut c rest = ⟨.fault (.unexpected c), [c]⟩ := by
  simp [Piece.cut, h.space, h.slash, h.quote, h.digit, h.letter, h.single, h.double]

theorem unknown_of_not_lexeme {c : Char} (h : ∀ kind text, ¬ Lexeme kind (c :: text)) :
    Unknown c where
  space := by
    refine Bool.eq_false_iff.mpr fun hc => ?_
    simp only [isBlank, Bool.or_eq_true, beq_iff_eq] at hc
    rcases hc with ((hc | hc) | hc) | rfl
    · exact h _ _ (.blank (.inl hc))
    · exact h _ _ (.blank (.inr (.inl hc)))
    · exact h _ _ (.blank (.inr (.inr hc)))
    · exact h _ _ .newline
  slash := by
    rintro rfl
    exact h _ ['/'] (.comment nofun)
  quote := by
    rintro rfl
    exact h _ _ (@Lexeme.string [] nofun)
  digit := Bool.eq_false_iff.mpr fun hc => h _ [] (.integer nofun (by simpa using hc))
  letter := Bool.eq_false_iff.mpr fun hc => h _ [] (.word hc nofun)
  single := Option.eq_none_iff_forall_ne_some.mpr fun _ hc =>
    h _ [] (.operator (mem_operators_of_single hc))
  double := Option.eq_none_iff_forall_ne_some.mpr fun _ hc =>
    h _ [] (.operator (mem_operators_of_double hc).1)

/-- No lexeme begins with a character that no rule knows. -/
theorem Unknown.not_lexeme {c : Char} (hc : Unknown c) (kind : PieceKind) (text : List Char) :
    ¬ Lexeme kind (c :: text) := by
  intro h
  generalize htext : c :: text = whole at h
  cases h with
  | blank hblank =>
    have hspace := hc.space
    cases htext
    rcases hblank with rfl | rfl | rfl <;> cases hspace
  | newline =>
    have hspace := hc.space
    cases htext
    cases hspace
  | comment => exact hc.slash (List.cons.inj htext).1
  | operator ho =>
    rcases operator_cases ho with ⟨rfl, -⟩ | ⟨d, ⟨hd, rfl⟩ | ⟨_, _, _, -, hd, ⟨rfl, -⟩ | ⟨rfl, -⟩⟩⟩
    · exact hc.slash (List.cons.inj htext).1
    · cases htext
      rw [hc.single] at hd
      cases hd
    · cases htext
      rw [hc.double] at hd
      cases hd
    · cases htext
      rw [hc.double] at hd
      cases hd
  | integer _ hd =>
    have := hd c (by rw [← htext]; exact List.mem_cons_self)
    rw [hc.digit] at this
    cases this
  | @decimal digits fraction hne hd =>
    cases digits with
    | nil => exact hne rfl
    | cons d ds =>
      have := hd d List.mem_cons_self
      rw [← (List.cons.inj htext).1, hc.digit] at this
      cases this
  | word hw =>
    rw [← (List.cons.inj htext).1, hc.letter] at hw
    cases hw
  | string => exact hc.quote (List.cons.inj htext).1

/-! ## What each rule cuts off -/

theorem cutSlash_comment {body after : List Char} (hbody : ∀ c ∈ body, (c != '\n') = true)
    (hafter : Stops (· != '\n') after) :
    cutSlash ('/' :: (body ++ after)) = ⟨.skipped, '/' :: '/' :: body⟩ := by
  simp only [cutSlash, takeWhile_run hbody hafter]

theorem cutSlash_slash {rest : List Char} (h : rest.head? ≠ some '/') :
    cutSlash rest = symbolPiece .slash ['/'] := by
  unfold cutSlash
  split
  · exact absurd rfl h
  · rfl

theorem cutWord_run {c : Char} {word rest : List Char} (hword : ∀ d ∈ word, isWordChar d = true)
    (hrest : Stops isWordChar rest) :
    cutWord c (word ++ rest) =
      symbolPiece (Symbol.ofWord (String.ofList (c :: word))) (c :: word) := by
  simp only [cutWord, takeWhile_run hword hrest]

/-- A string that is closed. -/
theorem cutString_closed {body : List Char} (h : ∀ c ∈ body, (c != '"') = true)
    (after : List Char) :
    cutString (body ++ '"' :: after) =
      ⟨.token (.string (String.ofList body)), '"' :: (body ++ ['"'])⟩ := by
  have hbody : (body ++ '"' :: after).takeWhile (· != '"') = body :=
    takeWhile_run h fun c hc => by cases hc; rfl
  simp [cutString, hbody]

/-- A string that is never closed. -/
theorem cutString_open {body : List Char} (h : ∀ c ∈ body, (c != '"') = true) :
    cutString body = ⟨.fault .unterminatedString, '"' :: body⟩ := by
  simp [cutString, List.takeWhile_eq_self_iff.mpr h]

/-- A numeral with a fraction. -/
theorem cutNumber_decimal {c : Char} {whole fraction rest : List Char}
    (hwhole : ∀ d ∈ whole, isDigit d = true) (hne : fraction ≠ [])
    (hfraction : ∀ d ∈ fraction, isDigit d = true) (hrest : Stops isDigit rest) :
    cutNumber c (whole ++ '.' :: (fraction ++ rest)) =
      ⟨.token (.number (Number.ofDigits (c :: whole) fraction)), c :: whole ++ '.' :: fraction⟩ := by
  have hpoint : Stops isDigit ('.' :: (fraction ++ rest)) := fun d hd => by cases hd; rfl
  simp only [cutNumber, takeWhile_run hwhole hpoint, dropWhile_run hwhole hpoint,
    takeWhile_run hfraction hrest]
  rw [if_neg (by simpa using hne)]

/-- A numeral without one: neither a digit follows, nor a point and a digit. -/
theorem cutNumber_integer {c : Char} {whole rest : List Char}
    (hwhole : ∀ d ∈ whole, isDigit d = true) (hrest : Stops isDigit rest)
    (hpoint : ∀ after, rest = '.' :: after → Stops isDigit after) :
    cutNumber c (whole ++ rest) =
      ⟨.token (.number (Number.ofDigits (c :: whole) [])), c :: whole⟩ := by
  simp only [cutNumber, takeWhile_run hwhole hrest, dropWhile_run hwhole hrest]
  split
  · next after =>
    have hnone : after.takeWhile isDigit = [] := @takeWhile_run _ [] after nofun (hpoint after rfl)
    rw [if_pos (by rw [hnone]; rfl)]
  · rfl

/-- The two shapes of what follows the first digit of a numeral. -/
theorem numeral_cases (rest : List Char) :
    ∃ whole after, rest = whole ++ after ∧ (∀ d ∈ whole, isDigit d = true) ∧
      Stops isDigit after ∧
      ((∀ tail, after = '.' :: tail → Stops isDigit tail) ∨
        ∃ fraction tail, after = '.' :: (fraction ++ tail) ∧ fraction ≠ [] ∧
          (∀ d ∈ fraction, isDigit d = true) ∧ Stops isDigit tail) := by
  obtain ⟨whole, after, rfl, hwhole, hafter⟩ := exists_run isDigit rest
  refine ⟨whole, after, rfl, hwhole, hafter, ?_⟩
  by_cases hpoint : ∃ tail, after = '.' :: tail
  · obtain ⟨tail, rfl⟩ := hpoint
    obtain ⟨fraction, tail', rfl, hfraction, htail'⟩ := exists_run isDigit tail
    cases fraction with
    | nil =>
      refine .inl fun tail hcons => ?_
      cases hcons
      exact htail'
    | cons d ds => exact .inr ⟨d :: ds, tail', rfl, nofun, hfraction, htail'⟩
  · exact .inl fun tail hcons => absurd ⟨tail, hcons⟩ hpoint

theorem exists_quote {text : List Char} (h : '"' ∈ text) :
    ∃ body after, text = body ++ '"' :: after ∧ ∀ c ∈ body, (c != '"') = true := by
  obtain ⟨body, after, rfl, hbody, hafter⟩ := exists_run (· != '"') text
  cases after with
  | nil =>
    rw [List.append_nil] at h
    have := hbody _ h
    simp at this
  | cons d after =>
    obtain rfl : d = '"' := by simpa using hafter d rfl
    exact ⟨body, after, rfl, hbody⟩

/-! ## The piece that is cut is a candidate -/

theorem candidate_cut (c : Char) (rest : List Char) :
    Candidate (c :: rest) (Piece.cut c rest).kind (Piece.cut c rest).text := by
  by_cases hspace : isBlank c = true ∨ c = '\n'
  · rw [cut_space hspace]
    refine @Candidate.lexeme _ [c] rest ?_
    rcases hspace with hblank | rfl
    · exact .blank (by simpa [isBlank, or_assoc] using hblank)
    · exact .newline
  by_cases hslash : c = '/'
  · subst hslash
    rw [cut_slash]
    cases rest with
    | nil => exact @Candidate.lexeme _ ['/'] [] (.operator (by decide))
    | cons d after =>
      by_cases hd : d = '/'
      · subst hd
        obtain ⟨body, after, rfl, hbody, hafter⟩ := exists_run (· != '\n') after
        rw [cutSlash_comment hbody hafter]
        exact @Candidate.lexeme _ ('/' :: '/' :: body) after
          (.comment fun hm => by simpa using hbody _ hm)
      · rw [cutSlash_slash (by simpa using hd)]
        exact @Candidate.lexeme _ ['/'] (d :: after) (.operator (by decide))
  by_cases hquote : c = '"'
  · subst hquote
    rw [cut_quote]
    by_cases hclosed : '"' ∈ rest
    · obtain ⟨body, after, rfl, hbody⟩ := exists_quote hclosed
      rw [cutString_closed hbody]
      have := @Candidate.lexeme _ _ after
        (@Lexeme.string body fun hm => by simpa using hbody _ hm)
      simpa using this
    · rw [cutString_open (run_of_not_mem hclosed)]
      exact .unterminated hclosed
  by_cases hdigit : isDigit c = true
  · rw [cut_digit hdigit]
    obtain ⟨whole, after, rfl, hwhole, hafter, hpoint | ⟨fraction, tail, rfl, hne, hfraction, htail⟩⟩ :=
      numeral_cases rest
    · rw [cutNumber_integer hwhole hafter hpoint]
      exact @Candidate.lexeme _ (c :: whole) after
        (.integer nofun (List.forall_mem_cons.mpr ⟨hdigit, hwhole⟩))
    · rw [cutNumber_decimal hwhole hne hfraction htail]
      have := @Candidate.lexeme _ _ tail (@Lexeme.decimal (c :: whole) fraction nofun
        (List.forall_mem_cons.mpr ⟨hdigit, hwhole⟩) hne hfraction)
      simpa using this
  by_cases hletter : isWordStart c = true
  · rw [cut_letter hletter]
    obtain ⟨word, after, rfl, hword, hafter⟩ := exists_run isWordChar rest
    rw [cutWord_run hword hafter]
    exact @Candidate.lexeme _ (c :: word) after (.word hletter hword)
  cases hsingle : single? c with
  | some symbol =>
    rw [cut_single hsingle]
    exact @Candidate.lexeme _ [c] rest (.operator (mem_operators_of_single hsingle))
  | none =>
    cases hdouble : double? c with
    | some d =>
      obtain ⟨short, second, long⟩ := d
      obtain ⟨hshort, hlong⟩ := mem_operators_of_double hdouble
      rw [cut_double hdouble]
      split_ifs with hhead
      · cases rest with
        | nil => cases hhead
        | cons e after =>
          cases hhead
          exact @Candidate.lexeme _ [c, second] after (.operator hlong)
      · exact @Candidate.lexeme _ [c] rest (.operator hshort)
    | none =>
      have hunknown : Unknown c := ⟨by simpa using hspace, hslash, hquote, by simpa using hdigit,
        by simpa using hletter, hsingle, hdouble⟩
      rw [hunknown.cut]
      exact .unexpected hunknown.not_lexeme

/-! ## No candidate is longer -/

/-- What is known of a candidate when another piece is cut: it is shorter, or the same piece. -/
structure Within (kind : PieceKind) (text : List Char) (p : Piece) : Prop where
  le : text.length ≤ p.text.length
  same : text.length = p.text.length → kind = p.kind

theorem within_refl (kind : PieceKind) (text : List Char) : Within kind text ⟨kind, text⟩ :=
  ⟨Nat.le_refl _, fun _ => rfl⟩

theorem within_shorter {kind : PieceKind} {text : List Char} {p : Piece}
    (h : text.length < p.text.length) : Within kind text p :=
  ⟨Nat.le_of_lt h, fun he => absurd he (Nat.ne_of_lt h)⟩

theorem cons_append_inj {c d : Char} {text rest rest' : List Char}
    (h : d :: text ++ rest' = c :: rest) : d = c ∧ text ++ rest' = rest := List.cons.inj h

theorem within_operator {text : List Char} {symbol : Symbol} (h : (text, symbol) ∈ operators)
    {c : Char} {rest rest' : List Char} (hrest : text ++ rest' = c :: rest) :
    Within (.token (.symbol symbol)) text (Piece.cut c rest) := by
  rcases operator_cases h with ⟨rfl, rfl⟩ | ⟨d, ⟨hd, rfl⟩ | ⟨short, second, long, -, hd, hform⟩⟩
  · obtain ⟨rfl, rfl⟩ := cons_append_inj hrest
    rw [cut_slash]
    cases rest' with
    | nil => exact within_refl _ _
    | cons e after =>
      by_cases he : e = '/'
      · subst he
        refine within_shorter ?_
        simp [cutSlash]
      · rw [cutSlash_slash (by simpa using he)]
        exact within_refl _ _
  · obtain ⟨rfl, rfl⟩ := cons_append_inj hrest
    rw [cut_single hd]
    exact within_refl _ _
  · rcases hform with ⟨rfl, rfl⟩ | ⟨rfl, rfl⟩
    · obtain ⟨rfl, rfl⟩ := cons_append_inj hrest
      rw [cut_double hd]
      split_ifs
      · exact within_shorter (by simp [symbolPiece])
      · exact within_refl _ _
    · obtain ⟨rfl, rfl⟩ := cons_append_inj hrest
      rw [cut_double hd, if_pos (by rfl)]
      exact within_refl _ _

theorem within_lexeme {kind : PieceKind} {text : List Char} (h : Lexeme kind text) {c : Char}
    {rest rest' : List Char} (hrest : text ++ rest' = c :: rest) :
    Within kind text (Piece.cut c rest) := by
  cases h with
  | blank hc =>
    obtain ⟨rfl, rfl⟩ := cons_append_inj hrest
    rw [cut_space (.inl (by rcases hc with rfl | rfl | rfl <;> rfl))]
    exact within_refl _ _
  | newline =>
    obtain ⟨rfl, rfl⟩ := cons_append_inj hrest
    rw [cut_space (.inr rfl)]
    exact within_refl _ _
  | @comment body hbody =>
    obtain ⟨rfl, rfl⟩ := cons_append_inj hrest
    obtain ⟨run, after, heq, hrun, hafter⟩ := exists_run (· != '\n') (body ++ rest')
    rw [cut_slash, List.cons_append, heq, cutSlash_comment hrun hafter]
    refine ⟨?_, fun _ => rfl⟩
    simpa using length_le_of_run heq (run_of_not_mem hbody) hrun hafter
  | operator ho => exact within_operator ho hrest
  | integer hne hdigits =>
    cases text with
    | nil => exact absurd rfl hne
    | cons d digits =>
      obtain ⟨hd, hdigits⟩ := List.forall_mem_cons.mp hdigits
      obtain ⟨rfl, rfl⟩ := cons_append_inj hrest
      rw [cut_digit hd]
      obtain ⟨whole, after, heq, hwhole, hafter, hpoint | ⟨fraction, tail, rfl, hf, hfraction, htail⟩⟩ :=
        numeral_cases (digits ++ rest')
      · have hle := length_le_of_run heq hdigits hwhole hafter
        rw [heq, cutNumber_integer hwhole hafter hpoint]
        refine ⟨by simpa using hle, fun hlength => ?_⟩
        obtain ⟨rfl, -⟩ := List.append_inj heq (by simpa using hlength)
        rfl
      · have hle := length_le_of_run heq hdigits hwhole hafter
        rw [heq, cutNumber_decimal hwhole hf hfraction htail]
        refine within_shorter ?_
        simp only [List.length_cons, List.length_append]
        omega
  | @decimal whole fraction hw hwhole hf hfraction =>
    cases whole with
    | nil => exact absurd rfl hw
    | cons d whole =>
      obtain ⟨hd, hwhole⟩ := List.forall_mem_cons.mp hwhole
      obtain ⟨run, tail, heq, hrun, htail⟩ := exists_run isDigit (fraction ++ rest')
      have hle := length_le_of_run heq hfraction hrun htail
      have hrun_ne : run ≠ [] := fun e => hf (by simpa [e] using hle)
      have hcut : Piece.cut c rest = cutNumber d (whole ++ '.' :: (run ++ tail)) := by
        obtain ⟨rfl, rfl⟩ := cons_append_inj hrest
        rw [cut_digit hd, ← heq]
        simp
      rw [hcut, cutNumber_decimal hwhole hrun_ne hrun htail]
      refine ⟨by simpa using hle, fun hlength => ?_⟩
      obtain ⟨rfl, -⟩ := List.append_inj heq (by simpa using hlength)
      rfl
  | @word d word hd hword =>
    obtain ⟨rfl, rfl⟩ := cons_append_inj hrest
    rw [cut_letter hd]
    obtain ⟨run, after, heq, hrun, hafter⟩ := exists_run isWordChar (word ++ rest')
    have hle := length_le_of_run heq hword hrun hafter
    rw [heq, cutWord_run hrun hafter]
    refine ⟨by simpa [symbolPiece] using hle, fun hlength => ?_⟩
    obtain ⟨rfl, -⟩ := List.append_inj heq (by simpa [symbolPiece] using hlength)
    rfl
  | @string body hbody =>
    have hcut : Piece.cut c rest = cutString (body ++ '"' :: rest') := by
      obtain ⟨rfl, rfl⟩ := cons_append_inj hrest
      rw [cut_quote]
      simp
    rw [hcut, cutString_closed (run_of_not_mem hbody)]
    exact within_refl _ _

theorem within_cut {c : Char} {rest : List Char} {kind : PieceKind} {text : List Char}
    (h : Candidate (c :: rest) kind text) : Within kind text (Piece.cut c rest) := by
  generalize hsource : c :: rest = source at h
  cases h with
  | lexeme h => exact within_lexeme h hsource.symm
  | unexpected h =>
    cases hsource
    rw [(unknown_of_not_lexeme h).cut]
    exact within_refl _ _
  | unterminated h =>
    cases hsource
    rw [cut_quote, cutString_open (run_of_not_mem h)]
    exact within_refl _ _

theorem Candidate.isPrefix {source : List Char} {kind : PieceKind} {text : List Char}
    (h : Candidate source kind text) : text <+: source := by
  cases h with
  | lexeme => exact List.prefix_append _ _
  | unexpected => exact List.prefix_append [_] _
  | unterminated => exact List.prefix_refl _

/-- **The piece that is cut is the longest candidate, and the only one.** -/
theorem longest_iff {c : Char} {rest : List Char} {p : Piece} :
    Longest (c :: rest) p ↔ p = Piece.cut c rest := by
  constructor
  · intro h
    have hwithin := within_cut h.candidate
    have hlength : p.text.length = (Piece.cut c rest).text.length :=
      Nat.le_antisymm hwithin.le (h.longest _ _ (candidate_cut c rest))
    have htext : p.text = (Piece.cut c rest).text :=
      (List.prefix_of_prefix_length_le h.candidate.isPrefix (candidate_cut c rest).isPrefix
        hwithin.le).eq_of_length hlength
    obtain ⟨kind, text⟩ := p
    exact (Piece.mk.injEq ..).mpr ⟨hwithin.same hlength, htext⟩
  · rintro rfl
    exact ⟨candidate_cut c rest, fun _ _ h => (within_cut h).le⟩

/-! ## Going through a text -/

theorem Lexeme.ne_nil {kind : PieceKind} {text : List Char} (h : Lexeme kind text) : text ≠ [] := by
  cases h with
  | operator ho =>
    rintro rfl
    revert ho
    simp [operators]
  | integer hne => exact hne
  | decimal => exact List.append_ne_nil_of_right_ne_nil _ (by simp)
  | _ => exact List.cons_ne_nil _ _

theorem Candidate.ne_nil {source : List Char} {kind : PieceKind} {text : List Char}
    (h : Candidate source kind text) : text ≠ [] := by
  cases h with
  | lexeme h => exact h.ne_nil
  | unexpected => exact List.cons_ne_nil _ _
  | unterminated => exact List.cons_ne_nil _ _

theorem length_cut_pos (c : Char) (rest : List Char) : 0 < (Piece.cut c rest).text.length :=
  List.length_pos_iff.mpr (candidate_cut c rest).ne_nil

/-- What is left behind the first piece. -/
theorem cut_append_drop (c : Char) (rest : List Char) :
    (Piece.cut c rest).text ++ (c :: rest).drop (Piece.cut c rest).text.length = c :: rest :=
  List.prefix_iff_eq_append.mp (candidate_cut c rest).isPrefix

theorem piecesUpTo_eq : ∀ (n m : Nat) (source : List Char), source.length ≤ n →
    source.length ≤ m → piecesUpTo n source = piecesUpTo m source
  | 0, m, [], _, _ => by cases m <;> rfl
  | _ + 1, m, [], _, _ => by cases m <;> rfl
  | n + 1, m + 1, c :: rest, hn, hm => by
    have hpos := length_cut_pos c rest
    have hdrop : ((c :: rest).drop (Piece.cut c rest).text.length).length ≤ rest.length := by
      simp only [List.length_drop, List.length_cons]
      omega
    simp only [piecesUpTo]
    rw [piecesUpTo_eq n m _ (hdrop.trans (Nat.le_of_succ_le_succ hn))
      (hdrop.trans (Nat.le_of_succ_le_succ hm))]

/-- **The pieces of a text are the first one and those of the rest.** -/
theorem pieces_cons (c : Char) (rest : List Char) :
    pieces (c :: rest) =
      Piece.cut c rest :: pieces ((c :: rest).drop (Piece.cut c rest).text.length) := by
  have hpos := length_cut_pos c rest
  simp only [pieces, List.length_cons, piecesUpTo]
  rw [piecesUpTo_eq]
  · simp only [List.length_drop, List.length_cons]
    omega
  · exact Nat.le_refl _

theorem itemsFrom_cons (line : Nat) (p : Piece) (ps : List Piece) :
    itemsFrom line (p :: ps) = (p.item? (line + p.text.count '\n')).toList ++
      itemsFrom (line + p.text.count '\n') ps := by
  simp only [itemsFrom]
  cases p.item? (line + p.text.count '\n') <;> rfl

theorem lineAfter_append (before text : List Char) :
    lineAfter (before ++ text) = lineAfter before + text.count '\n' := by
  simp only [lineAfter, List.count_append, Nat.add_assoc]

theorem Longest.eq_cut {p : Piece} {rest : List Char} (h : Longest (p.text ++ rest) p) :
    ∃ c tail, p.text ++ rest = c :: tail ∧ p = Piece.cut c tail := by
  obtain ⟨c, tail, hsource⟩ := List.exists_cons_of_ne_nil
    (List.append_ne_nil_of_left_ne_nil h.candidate.ne_nil rest)
  exact ⟨c, tail, hsource, longest_iff.mp (hsource ▸ h)⟩

/-- The longest piece is the first one, and what is left has the others. -/
theorem pieces_of_longest {p : Piece} {rest : List Char} (h : Longest (p.text ++ rest) p) :
    pieces (p.text ++ rest) = p :: pieces rest := by
  obtain ⟨c, tail, hsource, hp⟩ := h.eq_cut
  rw [hsource, pieces_cons, ← hp, ← hsource, List.drop_left]

theorem reading_pieces (source before : List Char) :
    Reading before source (pieces source) (itemsFrom (lineAfter before) (pieces source)) := by
  induction hn : source.length using Nat.strong_induction_on generalizing source before with
  | _ n ih =>
    cases source with
    | nil => exact .done before
    | cons c rest =>
      have hpos := length_cut_pos c rest
      have hlength : ((c :: rest).drop (Piece.cut c rest).text.length).length < n := by
        simp only [List.length_drop, ← hn, List.length_cons]
        omega
      have hrest := ih _ hlength _ (before ++ (Piece.cut c rest).text) rfl
      have hlongest : Longest ((Piece.cut c rest).text ++
          (c :: rest).drop (Piece.cut c rest).text.length) (Piece.cut c rest) := by
        rw [cut_append_drop]
        exact longest_iff.mpr rfl
      have hstep := Reading.piece hlongest hrest
      rwa [cut_append_drop, lineAfter_append, ← itemsFrom_cons, ← pieces_cons] at hstep

/-- **A text can be read in one way only.** -/
theorem reading_iff {before source : List Char} {ps : List Piece} {items : List LexItem} :
    Reading before source ps items ↔
      ps = pieces source ∧ items = itemsFrom (lineAfter before) (pieces source) := by
  constructor
  · intro h
    induction h with
    | done before => exact ⟨rfl, rfl⟩
    | @piece before rest p ps items hp _ ih =>
      obtain ⟨rfl, rfl⟩ := ih
      rw [pieces_of_longest hp, itemsFrom_cons, lineAfter_append]
      exact ⟨rfl, rfl⟩
  · rintro ⟨rfl, rfl⟩
    exact reading_pieces source before

/-- **Nothing is lost**: the texts of the pieces make up the text. -/
theorem texts_of_reading {before source : List Char} {ps : List Piece} {items : List LexItem}
    (h : Reading before source ps items) : ps.flatMap Piece.text = source := by
  induction h with
  | done => rfl
  | piece _ _ ih => rw [List.flatMap_cons, ih]

/-- **The end of the text comes last**, and nowhere else. -/
theorem items_of_reading {before source : List Char} {ps : List Piece} {items : List LexItem}
    (h : Reading before source ps items) :
    ∃ body, items = body ++ [.token ⟨.symbol .endOfText, "", lineAfter (before ++ source)⟩] ∧
      ∀ t, .token t ∈ body → t.is .endOfText = false := by
  induction h with
  | done before => exact ⟨[], by simp, nofun⟩
  | @piece before rest p ps items hp _ ih =>
    obtain ⟨body, rfl, hbody⟩ := ih
    refine ⟨(p.item? (lineAfter (before ++ p.text))).toList ++ body, by simp, fun t ht => ?_⟩
    rcases List.mem_append.mp ht with ht | ht
    · obtain ⟨c, tail, -, hcut⟩ := hp.eq_cut
      have hspelled : p.Spelled := hcut ▸ cut_spelled c tail
      rw [Option.mem_toList] at ht
      cases hkind : p.kind with
      | token kind =>
        simp only [Piece.item?, hkind] at ht
        cases ht
        refine decide_eq_false fun hend => ?_
        exact (hspelled .endOfText (hkind.trans (congrArg _ hend))).1 rfl
      | skipped => simp [Piece.item?, hkind] at ht
      | fault f => simp [Piece.item?, hkind] at ht
    · exact hbody t ht

end Scriptlet.Lexer
