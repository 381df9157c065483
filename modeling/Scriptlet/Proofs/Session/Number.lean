import Scriptlet.Session
import Scriptlet.Proofs.Lexer.Reference
import Scriptlet.Proofs.Number.Nearest

/-!
# Printed numbers read back

What scripts print for a finite number is a sign, unless the number is a zero, and a numeral in the window
of its magnitude. The lexer cuts the numeral off whole, since digits follow a point that is in it, and
reads it as the magnitude; the sign is an operator, which the parser puts in front.

Results:
* `Number.text_spec`: the printed form of a finite number.
* `Number.Stands.cut`: **a numeral in the window of a magnitude is cut off whole and read as it.**
* `lex_text`, `parse_listing`, `eval_written`: what the printed form is scanned, parsed and evaluated to.
* `text_reads_back`: **a printed number is read as itself**, and both zeros as the one without sign.
-/

namespace Scriptlet

namespace Number

/-! ## What is printed -/

/-- The number is printed with its sign. -/
def showsSign (x : Number) : Bool := x.isNegative && !x.isZero

/-- The characters of the sign that is printed. -/
def printedSign (x : Number) : String := if x.showsSign then "-" else ""

/-- A zero without its sign, and any other number as it is. -/
def withoutZeroSign (x : Number) : Number := if x.isZero then ofMagnitude false 0 else x

variable {x : Number}

theorem printedSign_of_pos (h : 0 < x.magnitude) : x.printedSign = x.sign := by
  have hzero : x.isZero = false := beq_eq_false_iff_ne.mpr h.ne'
  rw [printedSign, showsSign, hzero, Bool.not_false, Bool.and_true, sign]

theorem integerText_eq (x : Number) : x.integerText = x.printedSign ++ toString x.wholePart := by
  unfold integerText printedSign showsSign sign
  cases x.isZero <;> cases x.isNegative <;> rfl

/-- Below the limit or not, a zero is an integer. -/
theorem magnitude_pos_of_not_isInteger (hx : x.isFinite = true) (h : ¬ x.isInteger = true) :
    0 < x.magnitude := by
  refine Nat.pos_of_ne_zero fun hzero => h ?_
  have hunits : units x.magnitude = 0 := by
    rw [hzero, units_of_lt (Nat.pow_pos (by decide))]
  rw [isInteger, isWhole, wholePart, hx, hunits, Nat.zero_mod, Nat.zero_div]
  decide

/-- **What scripts print for a finite number**: its sign if it shows, and a numeral in the window of its
magnitude. -/
theorem text_spec (hx : x.isFinite = true) :
    ∃ numeral t, x.text = x.printedSign ++ String.ofList numeral ∧ Stands numeral t ∧
      (window x.magnitude).admits t = true := by
  have hfinite : x.magnitude < infinity := of_decide_eq_true hx
  have hinfinite : x.isInfinite = false := beq_eq_false_iff_ne.mpr hfinite.ne
  rw [text, hinfinite, if_neg Bool.false_ne_true]
  split_ifs with hinteger
  · have hwhole : x.isWhole = true := (Bool.and_eq_true_iff.mp hinteger).1
    have hstands := Stands.whole Nat.toDigits_ne_nil (isDigit_toDigits x.wholePart)
    rw [Nat.ofDigitChars_ten_toDigits, ← value_of_whole hwhole] at hstands
    refine ⟨_, _, ?_, hstands, admits_value _⟩
    rw [integerText_eq, Nat.toString_eq_ofList_toDigits]
  · have hpos := magnitude_pos_of_not_isInteger hx hinteger
    obtain ⟨t, hstands, hadmits⟩ := shortest_spec hpos .up
    refine ⟨_, t, ?_, hstands, hadmits⟩
    rw [plainText_of_pos hx hpos, printedSign_of_pos hpos, String.ofList_toList]

/-! ## The lexer -/

/-- **A numeral in the window of a magnitude is cut off whole and read as it**, before anything that does
not continue it. -/
theorem Stands.cut {numeral rest : List Char} {t m : Nat} (h : Stands numeral t) (hm : m < infinity)
    (hadmits : (window m).admits t = true) (hrest : Lexer.Stops Lexer.isDigit rest)
    (hpoint : rest.head? ≠ some '.') :
    ∃ c tail, numeral = c :: tail ∧ Lexer.Piece.cut c (tail ++ rest) =
      ⟨.token (.number (ofMagnitude false m)), numeral⟩ := by
  cases h with
  | whole hne hd =>
    obtain ⟨c, tail, rfl⟩ := List.exists_cons_of_ne_nil hne
    obtain ⟨hc, htail⟩ := List.forall_mem_cons.mp hd
    refine ⟨c, tail, rfl, ?_⟩
    have hread : ofDigits (c :: tail) [] = ofMagnitude false m := by
      refine ofDigits_of_admits (Nat.zero_le _) hm ?_
      simpa only [List.append_nil, List.length_nil, Nat.sub_zero] using hadmits
    have hafter (after : List Char) (h : rest = '.' :: after) : Lexer.Stops Lexer.isDigit after :=
      absurd (h ▸ rfl) hpoint
    rw [Lexer.cut_digit hc, Lexer.cutNumber_integer htail hrest hafter, hread]
  | @point whole fraction hne hw hnef hf hlen =>
    obtain ⟨c, tail, rfl⟩ := List.exists_cons_of_ne_nil hne
    obtain ⟨hc, htail⟩ := List.forall_mem_cons.mp hw
    refine ⟨c, tail ++ '.' :: fraction, rfl, ?_⟩
    rw [List.append_assoc, List.cons_append, Lexer.cut_digit hc,
      Lexer.cutNumber_decimal htail hnef hf hrest, ofDigits_of_admits hlen hm hadmits]

/-- There is no newline in a numeral. -/
theorem Stands.count_newline {numeral : List Char} {t : Nat} (h : Stands numeral t) :
    numeral.count '\n' = 0 := by
  refine List.count_eq_zero.mpr fun hmem => ?_
  rcases h.numeral.mem _ hmem with h | h
  · cases h
  · cases h

/-- The tokens of the printed form of a number, with a semicolon and the end of the text. -/
def listing (x : Number) (numeral : String) : List Token :=
  (if x.showsSign then [⟨.symbol .minus, "-", 1⟩] else []) ++
    [⟨.number (ofMagnitude false x.magnitude), numeral, 1⟩, ⟨.symbol .semicolon, ";", 1⟩,
      ⟨.symbol .endOfText, "", 1⟩]

/-- The expression that the printed form of a number stands for. -/
def written (x : Number) : Expr :=
  let value : Expr := .literal (.number (ofMagnitude false x.magnitude))
  if x.showsSign then .unary ⟨.symbol .minus, "-", 1⟩ value else value

/-! ## The value -/

section
variable {m : Nat} (hm : m < signBit) (negative : Bool)
include hm

theorem toNat_ofMagnitude :
    (ofMagnitude negative m).bits.toNat = if negative then signBit + m else m := by
  have hsign : signBit = 2 ^ 63 := rfl
  rw [hsign] at hm ⊢
  refine UInt64.toNat_ofNat_of_lt' (Nat.lt_of_lt_of_eq (m := 2 ^ 64) ?_ rfl)
  split_ifs <;> omega

theorem isNegative_ofMagnitude : (ofMagnitude negative m).isNegative = negative := by
  rw [isNegative, toNat_ofMagnitude hm]
  cases negative <;> simp [hm]

theorem magnitude_ofMagnitude : (ofMagnitude negative m).magnitude = m := by
  rw [magnitude, toNat_ofMagnitude hm]
  cases negative <;> simp [Nat.mod_eq_of_lt hm]

end

theorem magnitude_lt (x : Number) : x.magnitude < signBit :=
  Nat.mod_lt _ (Nat.pow_pos (by decide))

/-- **The sign and the magnitude make up the number**, unless it is the zero with a sign. -/
theorem neg_ofMagnitude (h : x.showsSign = true) :
    (ofMagnitude false x.magnitude).neg = x.withoutZeroSign := by
  obtain ⟨hnegative, hzero⟩ := Bool.and_eq_true_iff.mp h
  rw [withoutZeroSign, if_neg (by simpa using hzero), neg, isNegative_ofMagnitude x.magnitude_lt,
    magnitude_ofMagnitude x.magnitude_lt]
  refine eq_of_parts ?_ (magnitude_ofMagnitude x.magnitude_lt _)
  rw [isNegative_ofMagnitude x.magnitude_lt, hnegative, Bool.not_false]

theorem ofMagnitude_eq (h : x.showsSign = false) :
    ofMagnitude false x.magnitude = x.withoutZeroSign := by
  unfold withoutZeroSign
  split_ifs with hzero
  · rw [show x.magnitude = 0 from eq_of_beq hzero]
  · refine eq_of_parts ?_ (magnitude_ofMagnitude x.magnitude_lt _)
    rw [isNegative_ofMagnitude x.magnitude_lt]
    rw [showsSign, Bool.eq_false_iff.mpr hzero, Bool.not_false, Bool.and_true] at h
    exact h.symm

end Number

open Lexer

variable {x : Number}

/-- A numeral before a semicolon. -/
theorem pieces_numeral {numeral : List Char} {t m : Nat} (h : Number.Stands numeral t)
    (hm : m < Number.infinity) (hadmits : (Number.window m).admits t = true) :
    pieces (numeral ++ [';']) =
      [⟨.token (.number (Number.ofMagnitude false m)), numeral⟩, symbolPiece .semicolon [';']] := by
  have hrest : Stops isDigit [';'] := fun c hc => by
    cases hc
    rfl
  obtain ⟨c, tail, rfl, hcut⟩ := h.cut hm hadmits hrest (by decide)
  rw [List.cons_append, pieces_cons, hcut, ← List.cons_append, List.drop_left]
  rfl

/-- **The printed form is scanned without an error**, to a minus if the sign shows, one number, the
semicolon and the end of the text. -/
theorem lex_text (hx : x.isFinite = true) :
    ∃ numeral, x.text = x.printedSign ++ numeral ∧
      lex (x.text ++ ";") = (x.listing numeral).map .token := by
  obtain ⟨numeral, t, htext, hstands, hadmits⟩ := Number.text_spec hx
  have hpieces := pieces_numeral hstands (of_decide_eq_true hx) hadmits
  have hnumber : itemsFrom 1 (pieces (numeral ++ [';'])) =
      [.token ⟨.number (.ofMagnitude false x.magnitude), String.ofList numeral, 1⟩,
        .token ⟨.symbol .semicolon, ";", 1⟩, .token ⟨.symbol .endOfText, "", 1⟩] := by
    rw [hpieces, itemsFrom_cons, hstands.count_newline]
    rfl
  refine ⟨String.ofList numeral, htext, ?_⟩
  rw [htext, lex, String.toList_append, String.toList_append, String.toList_ofList]
  unfold Number.printedSign Number.listing
  cases x.showsSign with
  | false => exact hnumber
  | true =>
    show itemsFrom 1 (pieces ('-' :: (numeral ++ [';']))) = _
    rw [pieces_cons, cut_single rfl]
    show itemsFrom 1 (symbolPiece .minus ['-'] :: pieces (numeral ++ [';'])) = _
    rw [itemsFrom_cons]
    exact congrArg (.token ⟨.symbol .minus, "-", 1⟩ :: ·) hnumber

/-- **The tokens are parsed without a report**, to one expression statement. -/
theorem parse_listing (x : Number) (numeral : String) (ref : RefId) :
    parse (x.listing numeral) ref = ⟨[.expr x.written], #[], ref⟩ := by
  unfold Number.listing Number.written
  cases x.showsSign <;> rfl

/-- **The expression is evaluated to the number**, and both zeros to the one without sign. -/
theorem eval_written (x : Number) (σ : Scoping) {steps : Nat} (hsteps : 2 ≤ steps) (m : Machine) :
    eval σ steps x.written m = .ok (.number x.withoutZeroSign) m := by
  obtain ⟨n, rfl⟩ := Nat.exists_eq_add_of_le' hsteps
  unfold Number.written
  cases h : x.showsSign with
  | false => rw [← Number.ofMagnitude_eq h]; rfl
  | true => rw [← Number.neg_ofMagnitude h]; rfl

theorem resolve_written (x : Number) : resolve [.expr x.written] = ⟨#[], #[]⟩ := by
  unfold Number.written
  cases x.showsSign <;> rfl

theorem compile_listing {source numeral : String} (h : lex source = (x.listing numeral).map .token)
    (ref : RefId) : compile source ref = ⟨[.expr x.written], ref, #[], [], []⟩ := by
  have htokens : (lex source).filterMap LexItem.token? = x.listing numeral := by
    rw [h, List.filterMap_map]
    exact List.filterMap_some
  have herrors : (lex source).filterMap LexItem.error? = [] := by
    rw [h, List.filterMap_map]
    exact List.filterMap_eq_nil_iff.mpr fun _ _ => rfl
  unfold compile
  dsimp only
  rw [htokens, herrors, parse_listing, resolve_written]
  rfl

/-- **A printed number is read as itself.** Before a semicolon it is scanned and parsed without a report,
to one expression statement, and evaluated to the number, or to the zero without sign. -/
theorem text_reads_back {x : Number} (hx : x.isFinite = true) :
    ∃ numeral, x.text = x.printedSign ++ numeral ∧
      lex (x.text ++ ";") = (x.listing numeral).map .token ∧
      (∀ ref, parse (x.listing numeral) ref = ⟨[.expr x.written], #[], ref⟩) ∧
      (∀ ref, (compile (x.text ++ ";") ref).allReports = []) ∧
      (∀ σ steps m, 2 ≤ steps → eval σ steps x.written m = .ok (.number x.withoutZeroSign) m) ∧
      ∀ steps s, 2 ≤ steps → Session.evaluate steps s (x.text ++ ";") =
        some (.value (.number x.withoutZeroSign), s) := by
  obtain ⟨numeral, htext, hlex⟩ := lex_text hx
  refine ⟨numeral, htext, hlex, parse_listing x numeral, fun ref => ?_,
    fun σ steps m hsteps => eval_written x σ hsteps m, fun steps s hsteps => ?_⟩
  · rw [compile_listing hlex]
    rfl
  · unfold Session.evaluate
    rw [compile_listing hlex]
    simp only [Compiled.allReports, List.append_nil]
    rw [eval_written x _ hsteps]
    rfl

theorem text_reads_back_tenth :
    let x : Number := ⟨0xbfb999999999999a⟩
    x.isFinite = true ∧ x.text = "-0.1" ∧ x.withoutZeroSign = x ∧
      Session.evaluate 2 (.start .nan none) "-0.1;" =
        some (.value (.number x), .start .nan none) := by
  intro x
  have hx : x.isFinite = true := by decide +kernel
  have htext : x.text = "-0.1" := by decide +kernel
  have hplain : x.withoutZeroSign = x := by decide +kernel
  obtain ⟨-, -, -, -, -, -, hevaluate⟩ := text_reads_back hx
  rw [htext, hplain, show "-0.1" ++ ";" = "-0.1;" by decide] at hevaluate
  exact ⟨hx, htext, hplain, hevaluate 2 _ (Nat.le_refl 2)⟩

end Scriptlet
