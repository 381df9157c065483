import Scriptlet.Proofs.Number

/-!
# Numerals that are read

`nearest` scales a fraction so that its quotient has 53 binary digits, and rounds that. The magnitude it
gives is the one whose window has the fraction in it. A quotient that is rounded up to 54 digits gives
the first magnitude of the next scale, and one just above the first magnitude of a scale is further from
the magnitude below than the window is wide there, so neither end of a scale is an exception.

Results:
* `roundDiv_spec`: what rounding a quotient gives.
* `units_at`: magnitudes of one scale are worth multiples of its step, the first one of the next included.
* `admits_rounded`: **the window of the rounded fraction has the fraction in it.**
* `nearest_of_admits`, `ofDigits_of_admits`: a fraction or a numeral in the window of a finite magnitude
  is read as that magnitude.
-/

namespace Scriptlet.Number

/-! ## Rounding a quotient -/

/-- **A quotient is rounded by at most a half**, and by a half only to an even number. -/
theorem roundDiv_spec (num : Nat) {den : Nat} (hden : 0 < den) :
    2 * (roundDiv num den * den) ≤ 2 * num + den ∧ 2 * num ≤ 2 * (roundDiv num den * den) + den ∧
      (2 * (roundDiv num den * den) = 2 * num + den ∨ 2 * num = 2 * (roundDiv num den * den) + den →
        roundDiv num den % 2 = 0) := by
  have hnum : num / den * den + num % den = num := Nat.div_add_mod' num den
  have hrest : num % den < den := Nat.mod_lt num hden
  have hup : (num / den + 1) * den = num / den * den + den := Nat.succ_mul _ _
  unfold roundDiv
  dsimp only
  split_ifs with h
  · rw [hup]
    omega
  · omega

/-! ## A scale -/

/-- **The magnitudes of one scale**, from where it begins up to the beginning of the next. -/
theorem units_at {s r : Nat} (hr : r ≤ 2 * Nat.pow 2 52) (hs : s = 0 ∨ Nat.pow 2 52 ≤ r) :
    units (s * Nat.pow 2 52 + r) = r * 2 ^ s := by
  have hpos : 0 < Nat.pow 2 52 := Nat.pow_pos (by decide)
  generalize hP : Nat.pow 2 52 = P at *
  rcases lt_or_ge r P with hlt | hge
  · obtain rfl : s = 0 := hs.resolve_right (Nat.not_le_of_lt hlt)
    rw [Nat.zero_mul, Nat.zero_add, units_of_lt (hP ▸ hlt), Nat.pow_zero, Nat.mul_one]
  · obtain ⟨b, rfl⟩ := Nat.exists_eq_add_of_le hge
    rcases Nat.lt_or_eq_of_le (show b ≤ P by omega) with hb | rfl
    · have hplace : s * P + (P + b) = P * (s + 1) + b := by ring
      rw [hplace, ← hP, units_of_scale s (hP ▸ hb)]
    · have hplace : s * b + (b + b) = b * (s + 1 + 1) + 0 := by ring
      rw [hplace, ← hP, units_of_scale (s + 1) (hP ▸ hpos)]
      ring

/-! ## The window of the rounded fraction -/

/-- A point between the midpoints to the neighbours is in the window, both sides being multiplied by the
denominator. -/
theorem admits_of_sums {m t num den : Nat} (hden : 0 < den)
    (ht : t * den = 2 * num * Nat.pow 10 finest)
    (hlow : (units m + units (m - 1)) * den < 2 * num ∨
      (units m + units (m - 1)) * den = 2 * num ∧ m % 2 = 0)
    (hhigh : 2 * num < (units m + units (m + 1)) * den ∨
      2 * num = (units m + units (m + 1)) * den ∧ m % 2 = 0) :
    (window m).admits t = true := by
  have hends (u : Nat) : u * Nat.pow 10 finest * den = u * den * Nat.pow 10 finest :=
    Nat.mul_right_comm _ _ _
  have hlow' : (window m).low < t ∨ (window m).low = t ∧ m % 2 = 0 := by
    refine hlow.imp (fun h => ?_) fun ⟨h, heven⟩ => ⟨?_, heven⟩
    · refine Nat.lt_of_mul_lt_mul_right (a := den) ?_
      rw [ht]
      exact (hends _).trans_lt (Nat.mul_lt_mul_of_pos_right h finest_pos)
    · refine Nat.eq_of_mul_eq_mul_right hden ?_
      rw [ht, ← h]
      exact hends _
  have hhigh' : t < (window m).high ∨ t = (window m).high ∧ m % 2 = 0 := by
    refine hhigh.imp (fun h => ?_) fun ⟨h, heven⟩ => ⟨?_, heven⟩
    · refine Nat.lt_of_mul_lt_mul_right (a := den) ?_
      rw [ht]
      exact (Nat.mul_lt_mul_of_pos_right h finest_pos).trans_eq (hends _).symm
    · refine Nat.eq_of_mul_eq_mul_right hden ?_
      rw [ht, h]
      exact (hends _).symm
  have hclosed : (window m).closed = (m % 2 == 0) := rfl
  simp only [Window.admits, hclosed, Bool.or_eq_true, Bool.and_eq_true, decide_eq_true_eq,
    beq_iff_eq]
  omega

section
variable {m s r num den : Nat}

theorem mod_two_at (s r : Nat) : (s * Nat.pow 2 52 + r) % 2 = r % 2 := by
  have heven : Nat.pow 2 52 % 2 = 0 := by decide
  rw [Nat.add_mod, Nat.mul_mod, heven, Nat.mul_zero, Nat.zero_mod, Nat.zero_add, Nat.mod_mod]

/-- The lower end: the value is that of the magnitude or above, or the magnitude below is of the same
scale. -/
theorem rounded_above_low (hplace : m = s * Nat.pow 2 52 + r) (hr : r ≤ 2 * Nat.pow 2 52)
    (hs : s = 0 ∨ Nat.pow 2 52 ≤ r)
    (hlow : s = 0 ∨ Nat.pow 2 52 * (den * 2 ^ s) ≤ num) (hden : 0 < den)
    (hover : 2 * (r * (den * 2 ^ s)) ≤ 2 * num + den * 2 ^ s)
    (htie : 2 * (r * (den * 2 ^ s)) = 2 * num + den * 2 ^ s → r % 2 = 0) :
    (units m + units (m - 1)) * den < 2 * num ∨
      (units m + units (m - 1)) * den = 2 * num ∧ m % 2 = 0 := by
  have hm : units m * den = r * (den * 2 ^ s) := by
    rw [hplace, units_at hr hs]
    ring
  rcases Nat.lt_or_ge num (r * (den * 2 ^ s)) with hlt | hge
  · have hpos : r ≠ 0 := by
      rintro rfl
      rw [Nat.zero_mul] at hlt
      exact Nat.not_lt_zero _ hlt
    obtain ⟨q, rfl⟩ := Nat.exists_eq_add_one_of_ne_zero hpos
    have hq : s = 0 ∨ Nat.pow 2 52 ≤ q :=
      hlow.imp_right fun h => Nat.le_of_lt_succ (Nat.lt_of_mul_lt_mul_right (h.trans_lt hlt))
    have hbelow : units (m - 1) * den = q * (den * 2 ^ s) := by
      rw [show m - 1 = s * Nat.pow 2 52 + q by omega, units_at (Nat.le_of_succ_le hr) hq]
      ring
    have hsucc : (q + 1) * (den * 2 ^ s) = q * (den * 2 ^ s) + den * 2 ^ s := Nat.succ_mul _ _
    rw [Nat.add_mul, hm, hbelow, hplace, mod_two_at]
    omega
  · rcases Nat.eq_zero_or_pos m with hzero | hpos
    · rw [hzero, units_of_lt (Nat.pow_pos (by decide)), Nat.zero_mul]
      exact (Nat.eq_zero_or_pos num).symm.imp (fun h => Nat.mul_pos (by decide) h)
        fun h => ⟨by rw [h], rfl⟩
    · refine .inl ?_
      have hlt : units (m - 1) * den < units m * den :=
        Nat.mul_lt_mul_of_pos_right (units_strictMono (by omega)) hden
      rw [Nat.add_mul]
      omega

/-- The upper end: the value is that of the magnitude or below, or the magnitude above is of the same
scale or begins the next. -/
theorem rounded_below_high (hplace : m = s * Nat.pow 2 52 + r) (hr : r ≤ 2 * Nat.pow 2 52)
    (hs : s = 0 ∨ Nat.pow 2 52 ≤ r)
    (hhigh : num < 2 * Nat.pow 2 52 * (den * 2 ^ s)) (hden : 0 < den)
    (hunder : 2 * num ≤ 2 * (r * (den * 2 ^ s)) + den * 2 ^ s)
    (htie : 2 * num = 2 * (r * (den * 2 ^ s)) + den * 2 ^ s → r % 2 = 0) :
    2 * num < (units m + units (m + 1)) * den ∨
      2 * num = (units m + units (m + 1)) * den ∧ m % 2 = 0 := by
  have hm : units m * den = r * (den * 2 ^ s) := by
    rw [hplace, units_at hr hs]
    ring
  rcases Nat.lt_or_ge (r * (den * 2 ^ s)) num with hlt | hge
  · have hr' : r + 1 ≤ 2 * Nat.pow 2 52 :=
      Nat.lt_of_mul_lt_mul_right (hlt.trans hhigh)
    have habove : units (m + 1) * den = (r + 1) * (den * 2 ^ s) := by
      rw [show m + 1 = s * Nat.pow 2 52 + (r + 1) by omega,
        units_at hr' (hs.imp_right Nat.le_succ_of_le)]
      ring
    have hsucc : (r + 1) * (den * 2 ^ s) = r * (den * 2 ^ s) + den * 2 ^ s := Nat.succ_mul _ _
    rw [Nat.add_mul, hm, habove, hplace, mod_two_at]
    omega
  · refine .inl ?_
    have hlt : units m * den < units (m + 1) * den :=
      Nat.mul_lt_mul_of_pos_right (units_strictMono (Nat.lt_succ_self m)) hden
    rw [Nat.add_mul]
    omega

end

/-- **The window of the rounded fraction has the fraction in it**, for a fraction of the scale. -/
theorem admits_rounded {s t num den : Nat} (hden : 0 < den)
    (ht : t * den = 2 * num * Nat.pow 10 finest)
    (hlow : s = 0 ∨ Nat.pow 2 52 * (den * 2 ^ s) ≤ num)
    (hhigh : num < 2 * Nat.pow 2 52 * (den * 2 ^ s)) :
    (window (s * Nat.pow 2 52 + roundDiv num (den * 2 ^ s))).admits t = true := by
  have hstep : 0 < den * 2 ^ s := Nat.mul_pos hden (Nat.pow_pos (by decide))
  obtain ⟨hover, hunder, htie⟩ := roundDiv_spec num hstep
  generalize roundDiv num (den * 2 ^ s) = r at *
  have hr : r ≤ 2 * Nat.pow 2 52 := by
    by_contra hgt
    have hmul := Nat.mul_le_mul_right (den * 2 ^ s) (Nat.succ_le_of_lt (Nat.lt_of_not_le hgt))
    rw [Nat.succ_mul] at hmul
    omega
  have hs : s = 0 ∨ Nat.pow 2 52 ≤ r := by
    refine hlow.imp_right fun h => ?_
    by_contra hlt
    have hmul := Nat.mul_le_mul_right (den * 2 ^ s) (Nat.succ_le_of_lt (Nat.lt_of_not_le hlt))
    rw [Nat.succ_mul] at hmul
    omega
  exact admits_of_sums hden ht
    (rounded_above_low rfl hr hs hlow hden hover fun h => htie (.inl h))
    (rounded_below_high rfl hr hs hhigh hden hunder fun h => htie (.inr h))

/-- **A fraction in the window of a finite magnitude is read as that magnitude.** -/
theorem nearest_of_admits {m t num den : Nat} (hden : 0 < den) (hm : m < infinity)
    (ht : t * den = num * gridStep finest) (h : (window m).admits t = true) :
    nearest num den = m := by
  have ht' : t * den = 2 * (num * unit) * Nat.pow 10 finest := by
    rw [ht, gridStep]
    ring
  unfold nearest
  dsimp only
  generalize num * unit = scaled at *
  generalize hs : (scaled / den).log2 - 52 = s
  have hquotient : scaled < den * (scaled / den + 1) := Nat.lt_mul_div_succ scaled hden
  have hupper : scaled / den + 1 ≤ 2 * Nat.pow 2 52 * 2 ^ s := by
    have hlog : scaled / den < 2 ^ ((scaled / den).log2 + 1) := Nat.lt_log2_self
    have hpow : 2 ^ ((scaled / den).log2 + 1) ≤ 2 ^ (53 + s) :=
      Nat.pow_le_pow_right (by decide) (by omega)
    exact (Nat.succ_le_of_lt hlog).trans (hpow.trans_eq (Nat.pow_add 2 53 s))
  have hrounded := admits_rounded (s := s) hden ht' ?_ ?_
  · show min (s * Nat.pow 2 52 + roundDiv scaled (den * 2 ^ s)) infinity = m
    rw [← eq_of_admits h hrounded, Nat.min_eq_left hm.le]
  · rcases Nat.eq_zero_or_pos s with hzero | hpos
    · exact .inl hzero
    · refine .inr ?_
      have hne : scaled / den ≠ 0 := by
        intro h0
        rw [h0] at hs
        simp at hs
        omega
      have hlog : 2 ^ (52 + s) ≤ scaled / den := by
        have := Nat.log2_self_le hne
        rwa [show (scaled / den).log2 = 52 + s by omega] at this
      calc Nat.pow 2 52 * (den * 2 ^ s) = 2 ^ (52 + s) * den := by
            rw [Nat.pow_add, Nat.pow_eq]
            ring
        _ ≤ scaled / den * den := Nat.mul_le_mul_right den hlog
        _ ≤ scaled := Nat.div_mul_le_self scaled den
  · calc scaled < den * (scaled / den + 1) := hquotient
      _ ≤ den * (2 * Nat.pow 2 52 * 2 ^ s) := Nat.mul_le_mul_left den hupper
      _ = 2 * Nat.pow 2 52 * (den * 2 ^ s) := by ring

/-- **A numeral in the window of a finite magnitude is read as that magnitude.** -/
theorem ofDigits_of_admits {whole fraction : List Char} {m : Nat} (hlen : fraction.length ≤ finest)
    (hm : m < infinity)
    (h : (window m).admits (Nat.ofDigitChars 10 (whole ++ fraction) 0 *
      gridStep (finest - fraction.length)) = true) :
    ofDigits whole fraction = ofMagnitude false m := by
  have hstep : gridStep finest = 10 ^ fraction.length * gridStep (finest - fraction.length) := by
    rw [← gridStep_add, Nat.sub_add_cancel hlen]
  have hpos : 0 < Nat.pow 10 fraction.length := Nat.pow_pos (by decide)
  refine congrArg (ofMagnitude false) (nearest_of_admits hpos hm ?_ h)
  rw [hstep, Nat.pow_eq]
  ring

end Scriptlet.Number
