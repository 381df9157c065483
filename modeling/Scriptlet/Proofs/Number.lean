import Scriptlet.Number.Text
import Mathlib.Order.Monotone.Basic
import Mathlib.Data.List.TakeWhile
import Mathlib.Tactic.Ring

/-!
# Printed numbers

The points that are rounded to a number make up its window. No point lies in two windows, so a text
that stands for a point of the number's window determines the number. The texts of finite numbers in
printed syntax trees are of this kind: a whole number stands there as its exact value, any other one
as the point that `shortest` has found.

Results:
* `units_strictMono`: a greater magnitude is worth more.
* `eq_of_admits`: **no point is rounded to two numbers.**
* `shortest_spec`: the shortest decimal is rounded to the number it is made for.
* `treeText_injective`: **two finite numbers are never printed alike.**
-/

namespace Scriptlet.Number

/-! ## Values of magnitudes -/

theorem units_of_lt {m : Nat} (h : m < Nat.pow 2 52) : units m = m := by
  have hscale : scale m = 0 := by rw [scale, Nat.div_eq_of_lt h]
  rw [units, significand, if_pos h, hscale]
  exact Nat.mul_one m

theorem units_of_scale (a : Nat) {b : Nat} (h : b < Nat.pow 2 52) :
    units (Nat.pow 2 52 * (a + 1) + b) = (Nat.pow 2 52 + b) * 2 ^ a := by
  have hpos : 0 < Nat.pow 2 52 := Nat.zero_lt_of_lt h
  have hle : Nat.pow 2 52 ≤ Nat.pow 2 52 * (a + 1) + b :=
    (Nat.le_mul_of_pos_right _ a.succ_pos).trans (Nat.le_add_right _ _)
  have hscale : scale (Nat.pow 2 52 * (a + 1) + b) = a := by
    rw [scale, Nat.mul_add_div hpos, Nat.div_eq_of_lt h]
    rfl
  rw [units, significand, if_neg (not_lt.mpr hle), hscale, Nat.mul_add_mod, Nat.mod_eq_of_lt h]
  rfl

/-- **A greater magnitude is worth more.** -/
theorem units_strictMono : StrictMono units := by
  refine strictMono_nat_of_lt_succ fun m => ?_
  have hpos : 0 < Nat.pow 2 52 := Nat.pow_pos (by decide)
  rcases lt_or_ge m (Nat.pow 2 52) with hm | hm
  · rw [units_of_lt hm]
    rcases Nat.lt_or_eq_of_le (Nat.succ_le_of_lt hm) with hm' | hm'
    · rw [units_of_lt hm']
      exact Nat.lt_succ_self m
    · have hfirst := units_of_scale 0 hpos
      rw [Nat.zero_add, Nat.mul_one, Nat.add_zero, Nat.pow_zero, Nat.mul_one] at hfirst
      rw [← Nat.succ_eq_add_one, hm', hfirst]
      exact hm
  · obtain ⟨a, b, hb, rfl⟩ : ∃ a b, b < Nat.pow 2 52 ∧ m = Nat.pow 2 52 * (a + 1) + b := by
      refine ⟨m / Nat.pow 2 52 - 1, m % Nat.pow 2 52, Nat.mod_lt _ hpos, ?_⟩
      rw [Nat.sub_add_cancel (Nat.div_pos hm hpos), Nat.div_add_mod]
    rw [units_of_scale a hb]
    rcases Nat.lt_or_eq_of_le (Nat.succ_le_of_lt hb) with hb' | hb'
    · rw [Nat.add_assoc, units_of_scale a hb']
      exact Nat.mul_lt_mul_of_pos_right (Nat.lt_succ_self _) (Nat.pow_pos (by decide))
    · have hnext := units_of_scale (a + 1) hpos
      have hsucc : Nat.pow 2 52 * (a + 1) + b + 1 = Nat.pow 2 52 * (a + 1 + 1) + 0 := by
        rw [Nat.add_assoc, ← Nat.succ_eq_add_one b, hb', Nat.add_zero, Nat.mul_succ _ (a + 1)]
      rw [hsucc, hnext, Nat.pow_succ, Nat.mul_comm (2 ^ a), ← Nat.mul_assoc]
      exact Nat.mul_lt_mul_of_pos_right (by omega) (Nat.pow_pos (by decide))

/-! ## Windows -/

theorem finest_pos : 0 < Nat.pow 10 finest := by decide +kernel

theorem gridStep_zero_pos : 0 < gridStep 0 := by decide +kernel

/-- On the finest grid neighbours are closer together than any two numbers. -/
theorem gridStep_zero_lt : gridStep 0 < Nat.pow 10 finest := by decide +kernel

theorem window_le {m t : Nat} (h : (window m).admits t = true) :
    (window m).low ≤ t ∧ t ≤ (window m).high ∧
      (m % 2 = 1 → (window m).low < t ∧ t < (window m).high) := by
  have hends : (window m).low ≤ (window m).high :=
    Nat.mul_le_mul_right _ (Nat.add_le_add_left (units_strictMono.monotone (by omega)) _)
  simp only [Window.admits, Bool.or_eq_true, Bool.and_eq_true, decide_eq_true_eq, beq_iff_eq] at h
  rcases h with ⟨hlow, hhigh⟩ | ⟨hclosed, hend⟩
  · exact ⟨hlow.le, hhigh.le, fun _ => ⟨hlow, hhigh⟩⟩
  · have hclosed : (m % 2 == 0) = true := hclosed
    have hodd : m % 2 ≠ 1 := by
      rw [eq_of_beq hclosed]
      exact zero_ne_one
    rcases hend with hend | hend
    · exact ⟨hend.ge, hend.trans_le hends, fun h => absurd h hodd⟩
    · exact ⟨hends.trans_eq hend.symm, hend.le, fun h => absurd h hodd⟩

theorem not_admits_of_lt {m m' t : Nat} (hlt : m < m') (h : (window m).admits t = true) :
    (window m').admits t = false := by
  refine Bool.eq_false_iff.mpr fun h' => ?_
  obtain ⟨-, hhigh, hodd⟩ := window_le h
  obtain ⟨hlow, -, hodd'⟩ := window_le h'
  have hbelow : units m ≤ units (m' - 1) := units_strictMono.monotone (by omega)
  have habove : units (m + 1) ≤ units m' := units_strictMono.monotone (by omega)
  have hsums : units m + units (m + 1) ≤ units m' + units (m' - 1) := by omega
  have hmeet : (window m).high ≤ (window m').low := Nat.mul_le_mul_right _ hsums
  -- Windows meet in one point only, and one of two neighbours does not contain its ends.
  have heq : (window m).high = (window m').low := le_antisymm hmeet (hlow.trans hhigh)
  have hsum : units m + units (m + 1) = units m' + units (m' - 1) :=
    Nat.eq_of_mul_eq_mul_right finest_pos (by simpa only [window] using heq)
  have hnext : m' = m + 1 := by
    have := units_strictMono.injective (show units (m + 1) = units m' by omega)
    omega
  rcases Nat.mod_two_eq_zero_or_one m with hm | hm
  · exact absurd (hhigh.trans_eq heq) (not_le.mpr (hodd' (by omega)).1)
  · exact absurd (heq.trans_le hlow) (not_le.mpr (hodd hm).2)

/-- **No point is rounded to two numbers.** -/
theorem eq_of_admits {m m' t : Nat} (h : (window m).admits t = true)
    (h' : (window m').admits t = true) : m = m' := by
  rcases lt_trichotomy m m' with hlt | heq | hlt
  · rw [not_admits_of_lt hlt h] at h'
    cases h'
  · exact heq
  · rw [not_admits_of_lt hlt h'] at h
    cases h

theorem admits_of_between {w : Window} {t : Nat} (hlow : w.low < t) (hhigh : t < w.high) :
    w.admits t = true := by
  simp [Window.admits, hlow, hhigh]

theorem value_lt_high (m : Nat) : (window m).value < (window m).high := by
  refine Nat.mul_lt_mul_of_pos_right ?_ finest_pos
  have hlt : units m < units (m + 1) := units_strictMono (Nat.lt_succ_self m)
  omega

/-- The value lies in its window, for positive magnitudes well above the lower end. -/
theorem low_add_finest_le {m : Nat} (hm : 0 < m) :
    (window m).low + Nat.pow 10 finest ≤ (window m).value := by
  have hlt : units (m - 1) < units m := units_strictMono (by omega)
  calc (window m).low + Nat.pow 10 finest
      = (units m + units (m - 1) + 1) * Nat.pow 10 finest := (Nat.succ_mul _ _).symm
    _ ≤ 2 * units m * Nat.pow 10 finest := Nat.mul_le_mul_right _ (by omega)

theorem admits_value (m : Nat) : (window m).admits (window m).value = true := by
  rcases Nat.eq_zero_or_pos m with rfl | hm
  · have hzero : units 0 = 0 := units_of_lt (Nat.pow_pos (by decide))
    simp [Window.admits, window, hzero]
  · exact admits_of_between (Nat.lt_of_lt_of_le (Nat.lt_add_of_pos_right finest_pos)
      (low_add_finest_le hm)) (value_lt_high m)

theorem Window.admits_of_multiple {w : Window} {tie : Tie} {step c : Nat}
    (h : w.multiple? tie step = some c) : w.admits (c * step) = true := by
  unfold Window.multiple? at h
  dsimp only at h
  split at h
  · cases h
  · next hlow _ =>
    cases h
    exact hlow
  · next _ hhigh =>
    cases h
    exact hhigh
  · next hlow hhigh =>
    cases h
    split_ifs
    · exact hhigh
    · exact hlow

/-- On the finest grid the point below the value is in the window. -/
theorem admits_below {m : Nat} (hm : 0 < m) :
    (window m).admits ((window m).value / gridStep 0 * gridStep 0) = true := by
  have hrest : (window m).value % gridStep 0 < Nat.pow 10 finest :=
    (Nat.mod_lt _ gridStep_zero_pos).trans gridStep_zero_lt
  refine admits_of_between ?_ ((Nat.div_mul_le_self _ _).trans_lt (value_lt_high m))
  refine Nat.lt_of_add_lt_add_right (n := (window m).value % gridStep 0) ?_
  rw [Nat.div_add_mod']
  exact (Nat.add_lt_add_left hrest _).trans_le (low_add_finest_le hm)

/-- The value of a whole number is a point of the grid of whole numbers. -/
theorem value_of_whole {x : Number} (h : x.isWhole = true) :
    (window x.magnitude).value = x.wholePart * gridStep finest := by
  rw [isWhole, Bool.and_eq_true, beq_iff_eq] at h
  have hunits : x.wholePart * unit = units x.magnitude :=
    Nat.div_mul_cancel (Nat.dvd_of_mod_eq_zero h.2)
  have hvalue (m : Nat) : (window m).value = 2 * units m * Nat.pow 10 finest := rfl
  rw [hvalue, ← hunits, gridStep]
  ring

/-- A point is found again on a finer grid. -/
theorem gridStep_add (j k : Nat) : gridStep (j + k) = 10 ^ k * gridStep j := by
  have hpow : Nat.pow 10 (j + k) = Nat.pow 10 j * 10 ^ k := Nat.pow_add 10 j k
  rw [gridStep, gridStep, hpow]
  ring

section
-- Unfolded, the step of a grid is a numeral of more than a thousand binary digits.
attribute [local irreducible] gridStep

theorem Window.coarsest_succ (w : Window) (tie : Tie) (k : Nat) :
    w.coarsest tie (k + 1) =
      match w.multiple? tie (gridStep (k + 1)) with
      | some c => (c, k + 1)
      | none => w.coarsest tie k := rfl

/-- **The point that is found lies in the window.** -/
theorem admits_coarsest {m : Nat} (hm : 0 < m) (tie : Tie) (k : Nat) :
    (window m).admits
      (((window m).coarsest tie k).1 * gridStep ((window m).coarsest tie k).2) = true := by
  induction k with
  | zero => exact admits_below hm
  | succ k ih =>
    rw [Window.coarsest_succ]
    cases hc : (window m).multiple? tie (gridStep (k + 1)) with
    | some c => exact Window.admits_of_multiple hc
    | none => exact ih

end

/-! ## Numerals -/

/-- Digits, and perhaps a point and more digits. -/
inductive Numeral : List Char → Prop
  | whole {digits : List Char} (hne : digits ≠ []) (h : ∀ c ∈ digits, c.isDigit = true) :
    Numeral digits
  | point {whole fraction : List Char} (hne : whole ≠ []) (hw : ∀ c ∈ whole, c.isDigit = true)
      (hf : ∀ c ∈ fraction, c.isDigit = true) : Numeral (whole ++ '.' :: fraction)

/-- The point that a numeral stands for, with no more digits after the point than the finest grid
takes. -/
def pointOf (numeral : List Char) : Nat :=
  let whole := numeral.takeWhile Char.isDigit
  let fraction := (numeral.dropWhile Char.isDigit).drop 1
  Nat.ofDigitChars 10 (whole ++ fraction) 0 * gridStep (finest - fraction.length)

theorem pointOf_whole {digits : List Char} (h : ∀ c ∈ digits, c.isDigit = true) :
    pointOf digits = Nat.ofDigitChars 10 digits 0 * gridStep finest := by
  have hfraction : digits.dropWhile Char.isDigit = [] := List.dropWhile_eq_nil_iff.mpr h
  rw [pointOf, List.takeWhile_eq_self_iff.mpr h, hfraction]
  simp

theorem pointOf_point {whole fraction : List Char} (hw : ∀ c ∈ whole, c.isDigit = true) :
    pointOf (whole ++ '.' :: fraction) =
      Nat.ofDigitChars 10 (whole ++ fraction) 0 * gridStep (finest - fraction.length) := by
  have htake : (whole ++ '.' :: fraction).takeWhile Char.isDigit = whole := by
    rw [List.takeWhile_append_of_pos hw]
    simp
  have hdrop : (whole ++ '.' :: fraction).dropWhile Char.isDigit = '.' :: fraction := by
    rw [List.dropWhile_append_of_pos hw]
    simp
  rw [pointOf, htake, hdrop]
  rfl

theorem isDigit_toDigits (n : Nat) : ∀ c ∈ Nat.toDigits 10 n, c.isDigit = true :=
  fun _ => Nat.isDigit_of_mem_toDigits (by decide) (by decide)

theorem isDigit_replicate (n : Nat) : ∀ c ∈ List.replicate n '0', c.isDigit = true := by
  intro c hc
  rw [List.eq_of_mem_replicate hc]
  rfl

/-- **A numeral and the point it stands for**: what comes behind the point is no finer than the finest
grid. -/
inductive Stands : List Char → Nat → Prop
  | whole {digits : List Char} (hne : digits ≠ []) (h : ∀ c ∈ digits, c.isDigit = true) :
    Stands digits (Nat.ofDigitChars 10 digits 0 * gridStep finest)
  | point {whole fraction : List Char} (hne : whole ≠ []) (hw : ∀ c ∈ whole, c.isDigit = true)
      (hnef : fraction ≠ []) (hf : ∀ c ∈ fraction, c.isDigit = true)
      (hlen : fraction.length ≤ finest) :
    Stands (whole ++ '.' :: fraction)
      (Nat.ofDigitChars 10 (whole ++ fraction) 0 * gridStep (finest - fraction.length))

theorem Stands.numeral {text : List Char} {t : Nat} (h : Stands text t) : Numeral text := by
  cases h with
  | whole hne h => exact .whole hne h
  | point hne hw _ hf _ => exact .point hne hw hf

theorem Stands.pointOf_eq {text : List Char} {t : Nat} (h : Stands text t) : pointOf text = t := by
  cases h with
  | whole _ h => exact pointOf_whole h
  | point _ hw _ _ _ => exact pointOf_point hw

section
variable {digits : List Char} (hne : digits ≠ []) (hd : ∀ c ∈ digits, c.isDigit = true)

include hne hd

/-- Zeros that fill up the places before the point. -/
theorem stands_filled (k : Nat) :
    Stands (digits ++ List.replicate k '0')
      (Nat.ofDigitChars 10 digits 0 * gridStep (finest + k)) := by
  have hall : ∀ c ∈ digits ++ List.replicate k '0', c.isDigit = true :=
    List.forall_mem_append.mpr ⟨hd, isDigit_replicate k⟩
  have hvalue : Nat.ofDigitChars 10 (digits ++ List.replicate k '0') 0 * gridStep finest =
      Nat.ofDigitChars 10 digits 0 * gridStep (finest + k) := by
    rw [Nat.ofDigitChars_append, Nat.ofDigitChars_replicate_zero, gridStep_add]
    ring
  exact hvalue ▸ .whole (List.append_ne_nil_of_left_ne_nil hne _) hall

/-- Zeros between the point and the digits. -/
theorem stands_padded {k : Nat} (hk : k + digits.length ≤ finest) :
    Stands (['0'] ++ '.' :: (List.replicate k '0' ++ digits))
      (Nat.ofDigitChars 10 digits 0 * gridStep (finest - (k + digits.length))) := by
  have hlength : (List.replicate k '0' ++ digits).length = k + digits.length := by
    rw [List.length_append, List.length_replicate]
  have hvalue : Nat.ofDigitChars 10 (['0'] ++ (List.replicate k '0' ++ digits)) 0 =
      Nat.ofDigitChars 10 digits 0 := by
    rw [Nat.ofDigitChars_append, Nat.ofDigitChars_append,
      show Nat.ofDigitChars 10 ['0'] 0 = 0 from rfl, Nat.ofDigitChars_replicate_zero, Nat.mul_zero]
  rw [← hvalue, ← hlength]
  exact .point (List.cons_ne_nil _ _) (List.forall_mem_singleton.mpr rfl)
    (List.append_ne_nil_of_right_ne_nil _ hne)
    (List.forall_mem_append.mpr ⟨isDigit_replicate k, hd⟩) (hlength.trans_le hk)

/-- A point between the digits. -/
theorem stands_split {k : Nat} (hk : k ≠ 0) (hlt : k < digits.length)
    (hlen : digits.length - k ≤ finest) :
    Stands (digits.take k ++ '.' :: digits.drop k)
      (Nat.ofDigitChars 10 digits 0 * gridStep (finest - (digits.length - k))) := by
  have hleft : digits.take k ≠ [] := by
    rw [ne_eq, List.take_eq_nil_iff, not_or]
    exact ⟨hk, hne⟩
  have hright : digits.drop k ≠ [] := by
    rw [ne_eq, List.drop_eq_nil_iff]
    exact Nat.not_le_of_lt hlt
  have hpoint := Stands.point hleft (fun c hc => hd c (List.mem_of_mem_take hc)) hright
    (fun c hc => hd c (List.mem_of_mem_drop hc)) (by rwa [List.length_drop])
  rwa [List.take_append_drop, List.length_drop] at hpoint

end

/-- **The positional text of a point on a grid** is a numeral that stands for the point. -/
theorem positional_spec {c j : Nat} {d : Decimal} (hdigits : d.digits = Nat.toDigits 10 c)
    (hpoint : d.point = d.digits.length + j - finest) :
    Stands d.positional.toList (c * gridStep j) := by
  have hd : ∀ c ∈ d.digits, c.isDigit = true := hdigits ▸ isDigit_toDigits c
  have hne : d.digits ≠ [] := hdigits ▸ Nat.toDigits_ne_nil
  have hvalue : Nat.ofDigitChars 10 d.digits 0 = c := hdigits ▸ Nat.ofDigitChars_ten_toDigits
  unfold Decimal.positional
  dsimp only
  split_ifs with hbelow habove
  · have hgrid : finest - ((-d.point).toNat + d.digits.length) = j := by omega
    have hstands := stands_padded hne hd (k := (-d.point).toNat) (by omega)
    rw [hvalue, hgrid] at hstands
    simpa using hstands
  · have hgrid : finest + (d.point - d.digits.length).toNat = j := by omega
    have hstands := stands_filled hne hd (d.point - d.digits.length).toNat
    rw [hvalue, hgrid] at hstands
    simpa using hstands
  · have hgrid : finest - (d.digits.length - d.point.toNat) = j := by omega
    have hstands := stands_split hne hd (k := d.point.toNat) (by omega) (by omega) (by omega)
    rw [hvalue, hgrid] at hstands
    simpa using hstands

/-- **The shortest decimal is rounded to the number.** -/
theorem shortest_spec {m : Nat} (hm : 0 < m) (tie : Tie) :
    ∃ t, Stands (shortest tie m).positional.toList t ∧ (window m).admits t = true :=
  ⟨_, @positional_spec _ _ (shortest tie m) rfl rfl, admits_coarsest hm tie _⟩

/-- **A printed whole number** is a numeral that stands for its value. -/
theorem whole_spec (n : Nat) : Stands (toString n ++ ".0").toList (n * gridStep finest) := by
  have htext : (toString n ++ ".0").toList = Nat.toDigits 10 n ++ '.' :: ['0'] := by
    rw [String.toList_append, Nat.toString_eq_ofList_toDigits, String.toList_ofList]
    rfl
  have hshift : Nat.ofDigitChars 10 (Nat.toDigits 10 n ++ ['0']) 0 = 10 * n := by
    rw [Nat.ofDigitChars_append, Nat.ofDigitChars_ten_toDigits]
    simp [Nat.ofDigitChars_cons]
  have hstep : gridStep finest = 10 ^ 1 * gridStep (finest - 1) := gridStep_add (finest - 1) 1
  have hpoint := Stands.point (Nat.toDigits_ne_nil (n := n) (b := 10)) (isDigit_toDigits n)
    (List.cons_ne_nil '0' []) (List.forall_mem_singleton.mpr rfl) (by decide)
  rw [hshift, List.length_singleton] at hpoint
  rw [htext, hstep]
  convert hpoint using 1
  ring

/-! ## Texts -/

section
variable {x : Number}

/-- Zero is whole. -/
theorem magnitude_pos (hx : x.isFinite = true) (h : ¬ x.isWhole = true) : 0 < x.magnitude := by
  refine Nat.pos_of_ne_zero fun hzero => h ?_
  rw [isWhole, hx, hzero, units_of_lt (Nat.pow_pos (by decide)), Nat.zero_mod]
  rfl

theorem plainText_of_pos (hx : x.isFinite = true) (hpos : 0 < x.magnitude) :
    x.plainText = x.sign ++ (shortest .up x.magnitude).positional := by
  have hfinite : x.magnitude < infinity := of_decide_eq_true hx
  have hnan : x.isNaN = false := decide_eq_false hfinite.le.not_gt
  have hinfinite : x.isInfinite = false := beq_eq_false_iff_ne.mpr hfinite.ne
  have hzero : x.isZero = false := beq_eq_false_iff_ne.mpr hpos.ne'
  rw [plainText, hnan, hinfinite, hzero]
  rfl

/-- **The printed form of a finite number** is its sign and a numeral that is rounded to its
magnitude. -/
theorem treeText_spec (hx : x.isFinite = true) :
    ∃ numeral, x.treeText.toList = x.sign.toList ++ numeral ∧ Numeral numeral ∧
      (window x.magnitude).admits (pointOf numeral) = true := by
  unfold treeText
  split_ifs with hwhole
  · have hstands := whole_spec x.wholePart
    refine ⟨(toString x.wholePart ++ ".0").toList, by simp [String.toList_append], hstands.numeral, ?_⟩
    rw [hstands.pointOf_eq, ← value_of_whole hwhole]
    exact admits_value _
  · have hpos := magnitude_pos hx hwhole
    obtain ⟨t, hstands, hadmits⟩ := shortest_spec hpos .up
    refine ⟨(shortest .up x.magnitude).positional.toList, ?_, hstands.numeral, ?_⟩
    · rw [plainText_of_pos hx hpos, String.toList_append]
    · rwa [hstands.pointOf_eq]

end

theorem Numeral.head {text : List Char} (h : Numeral text) :
    ∃ c rest, text = c :: rest ∧ c.isDigit = true := by
  cases h with
  | whole hne h =>
    obtain ⟨c, rest, rfl⟩ := List.exists_cons_of_ne_nil hne
    exact ⟨c, rest, rfl, h c List.mem_cons_self⟩
  | @point whole fraction hne hw hf =>
    obtain ⟨c, rest, rfl⟩ := List.exists_cons_of_ne_nil hne
    exact ⟨c, rest ++ '.' :: fraction, rfl, hw c List.mem_cons_self⟩

theorem Numeral.mem {text : List Char} (h : Numeral text) :
    ∀ c ∈ text, c.isDigit = true ∨ c = '.' := by
  intro c hc
  cases h with
  | whole _ h => exact .inl (h c hc)
  | point _ hw hf =>
    rcases List.mem_append.mp hc with hc | hc
    · exact .inl (hw c hc)
    · rcases List.mem_cons.mp hc with rfl | hc
      · exact .inr rfl
      · exact .inl (hf c hc)

/-- A number is its sign and its magnitude. -/
theorem eq_of_parts {x y : Number} (hsign : x.isNegative = y.isNegative)
    (hmagnitude : x.magnitude = y.magnitude) : x = y := by
  have hx := x.bits.toNat_lt
  have hy := y.bits.toNat_lt
  have hsign : signBit ≤ x.bits.toNat ↔ signBit ≤ y.bits.toNat := decide_eq_decide.mp hsign
  have hbits : x.bits.toNat = y.bits.toNat := by
    unfold magnitude signBit at *
    dsimp only [Nat.pow_eq] at *
    omega
  exact congrArg Number.mk (UInt64.toNat_inj.mp hbits)

/-- No digit is a minus sign. -/
theorem sign_append_inj {x y : Number} {n n' : List Char} (hn : Numeral n) (hn' : Numeral n')
    (h : x.sign.toList ++ n = y.sign.toList ++ n') : x.isNegative = y.isNegative ∧ n = n' := by
  obtain ⟨c, rest, rfl, hc⟩ := hn.head
  obtain ⟨c', rest', rfl, hc'⟩ := hn'.head
  unfold sign at h
  cases hx : x.isNegative <;> cases hy : y.isNegative <;> rw [hx, hy] at h
  · exact ⟨rfl, h⟩
  · obtain ⟨rfl, -⟩ := List.cons.inj h
    cases hc
  · obtain ⟨rfl, -⟩ := List.cons.inj h
    cases hc'
  · exact ⟨rfl, (List.cons.inj h).2⟩

/-- **Two finite numbers are never printed alike.** -/
theorem treeText_injective {x y : Number} (hx : x.isFinite = true) (hy : y.isFinite = true)
    (h : x.treeText = y.treeText) : x = y := by
  obtain ⟨n, hn, hnumeral, hadmits⟩ := treeText_spec hx
  obtain ⟨n', hn', hnumeral', hadmits'⟩ := treeText_spec hy
  rw [h, hn'] at hn
  obtain ⟨hsign, rfl⟩ := sign_append_inj hnumeral' hnumeral hn
  exact eq_of_parts hsign.symm (eq_of_admits hadmits hadmits')

end Scriptlet.Number
