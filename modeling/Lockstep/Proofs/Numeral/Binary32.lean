import Lockstep.Numeral.Binary32

/- Rounding to single precision.

   1. `roundRatio` is about the ratio only: a common factor changes nothing
      (`roundRatio_mul_right`). A magnitude is what its own units round to (`roundRatio_units`).
   2. The two answers that `roundDecimal` gives without rounding are those that rounding gives
      (`roundRatio_of_large`, `roundRatio_of_small`), so that it is a rounding of a ratio throughout
      (`roundDecimal_eq`), and zeros moved between coefficient and exponent change nothing
      (`roundDecimal_mul_pow`). -/
namespace Lockstep.Binary32

/-- A common factor of numerator and denominator does not count. -/
theorem roundRatio_mul_right {k : Nat} (hk : 0 < k) (num den : Nat) :
    roundRatio (num * k) (den * k) = roundRatio num den := by
  have hscaled : num * k * 2 ^ 149 = num * 2 ^ 149 * k := Nat.mul_right_comm ..
  have hgrid : ∀ p, den * k * 2 ^ p = den * 2 ^ p * k := fun p => Nat.mul_right_comm ..
  have hdouble : ∀ a, 2 * (a * k) = 2 * a * k := fun a => (Nat.mul_assoc ..).symm
  simp only [roundRatio, hscaled, hgrid, Nat.mul_div_mul_right _ _ hk, Nat.mul_mod_mul_right,
    hdouble, Nat.mul_lt_mul_right hk, Nat.mul_left_inj (Nat.ne_of_gt hk)]

theorem log2_mul_two_pow {n : Nat} (h : n ≠ 0) (k : Nat) : (n * 2 ^ k).log2 = n.log2 + k := by
  induction k with
  | zero => rw [Nat.pow_zero, Nat.mul_one, Nat.add_zero]
  | succ k ih =>
    have hne : n * 2 ^ k ≠ 0 := Nat.mul_ne_zero h (Nat.ne_of_gt (Nat.two_pow_pos k))
    rw [Nat.pow_succ, ← Nat.mul_assoc, Nat.mul_comm, Nat.log2_two_mul hne, ih, Nat.add_assoc]

/-! ## Magnitudes -/

/-- The significand of a magnitude fills twenty-four bits, or there is no power below it. -/
theorem significand_bounds (m : Nat) :
    significand m < 2 ^ 24 ∧ (power m = 0 ∨ 2 ^ 23 ≤ significand m) := by
  unfold significand power
  have h := Nat.div_add_mod m (2 ^ 23)
  have hlt := Nat.mod_lt m (show 0 < 2 ^ 23 by decide)
  omega

theorem significand_add_power (m : Nat) : power m * 2 ^ 23 + significand m = m := by
  unfold significand power
  have h := Nat.div_add_mod m (2 ^ 23)
  omega

theorem significand_pos {m : Nat} (h : 0 < m) : 0 < significand m := by
  have hsum := significand_add_power m
  rcases (significand_bounds m).2 with hp | hs
  · rw [hp] at hsum
    omega
  · exact Nat.lt_of_lt_of_le (by decide) hs

/-- The power of a magnitude is read off the size of its units. -/
theorem log2_units {m : Nat} (h : 0 < m) : (units m).log2 - 23 = power m := by
  have hs := significand_pos h
  obtain ⟨hlt, hpower⟩ := significand_bounds m
  have hlog : (significand m).log2 < 24 := (Nat.log2_lt (Nat.ne_of_gt hs)).2 hlt
  rw [units, log2_mul_two_pow (Nat.ne_of_gt hs)]
  rcases hpower with hp | hge
  · omega
  · have : 23 ≤ (significand m).log2 := (Nat.le_log2 (Nat.ne_of_gt hs)).2 hge
    omega

/-- A magnitude is what its units round to. -/
theorem roundRatio_units {m : Nat} (hpos : 0 < m) (hm : m ≤ infinityMagnitude) :
    roundRatio (units m) (2 ^ 149) = m := by
  -- The grid is that of the magnitude's own power, on which its units lie.
  have hpow : ∀ p : Nat, 0 < 2 ^ p := fun p => Nat.two_pow_pos p
  have hdiv : units m * 2 ^ 149 / 2 ^ 149 = units m := Nat.mul_div_cancel _ (hpow 149)
  have hnum : units m * 2 ^ 149 = significand m * (2 ^ 149 * 2 ^ power m) := by
    rw [units, Nat.mul_assoc, Nat.mul_comm (2 ^ power m)]
  have hgrid : 0 < 2 ^ 149 * 2 ^ power m := Nat.mul_pos (hpow _) (hpow _)
  have hquotient : units m * 2 ^ 149 / (2 ^ 149 * 2 ^ power m) = significand m := by
    rw [hnum, Nat.mul_div_cancel _ hgrid]
  have hrest : units m * 2 ^ 149 % (2 ^ 149 * 2 ^ power m) = 0 := by
    rw [hnum, Nat.mul_mod_left]
  have hup : ¬ (2 ^ 149 * 2 ^ power m < 2 * 0 ∨
      2 * 0 = 2 ^ 149 * 2 ^ power m ∧ significand m % 2 = 1) := by omega
  simp only [roundRatio, hdiv, log2_units hpos, hquotient, hrest, if_neg hup, Nat.add_zero,
    significand_add_power]
  exact Nat.min_eq_left hm

/-! ## Very large and very small ratios -/

/-- A ratio of at least 2 ^ 129 is past the largest finite number. -/
theorem roundRatio_of_large {num : Nat} (h : 2 ^ 129 ≤ num) :
    roundRatio num 1 = infinityMagnitude := by
  obtain ⟨scaled, hscaled⟩ : ∃ scaled, scaled = num * 2 ^ 149 := ⟨_, rfl⟩
  have hne : num ≠ 0 := Nat.ne_of_gt (Nat.lt_of_lt_of_le (Nat.two_pow_pos 129) h)
  have hlog : 278 ≤ scaled.log2 := by
    have hnum := (Nat.le_log2 hne).2 h
    rw [hscaled, log2_mul_two_pow hne]
    omega
  have hpower : 255 * 2 ^ 23 ≤ (scaled.log2 - 23) * 2 ^ 23 := Nat.mul_le_mul_right _ (by omega)
  simp only [roundRatio, ← hscaled, Nat.div_one]
  refine Nat.min_eq_right (Nat.le_trans hpower ?_)
  exact Nat.le_trans (Nat.le_add_right ..) (Nat.le_add_right ..)

/-- A ratio under 2 ^ -150 is nearer to zero than to the smallest number. -/
theorem roundRatio_of_small {num den : Nat} (h : 2 * (num * 2 ^ 149) < den) :
    roundRatio num den = 0 := by
  have hzero : num * 2 ^ 149 / den = 0 := Nat.div_eq_of_lt (by omega)
  have hlog : (Nat.log2 0 - 23) = 0 := by decide
  have hrest : num * 2 ^ 149 % (den * 2 ^ 0) = num * 2 ^ 149 := by
    rw [Nat.pow_zero, Nat.mul_one]
    exact Nat.mod_eq_of_lt (by omega)
  have hquotient : num * 2 ^ 149 / (den * 2 ^ 0) = 0 := by
    rw [Nat.pow_zero, Nat.mul_one]
    exact hzero
  have hup : ¬ (den * 2 ^ 0 < 2 * (num * 2 ^ 149) ∨
      2 * (num * 2 ^ 149) = den * 2 ^ 0 ∧ 0 % 2 = 1) := by
    rw [Nat.pow_zero, Nat.mul_one]
    omega
  simp only [roundRatio, hzero, hlog, hrest, hquotient, if_neg hup, Nat.zero_mul, Nat.add_zero]
  exact Nat.zero_min _

/-! ## Decimals -/

/-- The ratio of a decimal: its powers of ten above and below. -/
def ratio (coefficient : Nat) (exponent : Int) : Nat × Nat :=
  (coefficient * 10 ^ exponent.toNat, 10 ^ (-exponent).toNat)

theorem two_pow_le_ten_pow {e : Nat} (h : 39 ≤ e) : 2 ^ 129 ≤ 10 ^ e :=
  Nat.le_trans (by decide) (Nat.pow_le_pow_right (by decide) h)

/-- Digits that end before the fiftieth place behind the point denote a very small number. -/
theorem lt_ten_pow {coefficient k : Nat} (h : 50 + coefficient.log2 < k) :
    2 * (coefficient * 2 ^ 149) < 10 ^ k := by
  have hcoefficient : coefficient < 2 ^ (coefficient.log2 + 1) := Nat.lt_log2_self
  have hsmall : coefficient < 2 ^ (k - 50) :=
    Nat.lt_of_lt_of_le hcoefficient (Nat.pow_le_pow_right (by decide) (by omega))
  have hfive : 2 ^ 100 ≤ 5 ^ k :=
    Nat.le_trans (by decide) (Nat.pow_le_pow_right (by decide) (show 51 ≤ k by omega))
  calc 2 * (coefficient * 2 ^ 149)
      = coefficient * 2 ^ 150 := by omega
    _ < 2 ^ (k - 50) * 2 ^ 150 := Nat.mul_lt_mul_of_pos_right hsmall (Nat.two_pow_pos 150)
    _ = 2 ^ k * 2 ^ 100 := by rw [← Nat.pow_add, ← Nat.pow_add, show k - 50 + 150 = k + 100 by omega]
    _ ≤ 2 ^ k * 5 ^ k := Nat.mul_le_mul_left _ hfive
    _ = 10 ^ k := by rw [← Nat.mul_pow]

/-- Every decimal is rounded as the ratio that it is. -/
theorem roundDecimal_eq (coefficient : Nat) (exponent : Int) :
    roundDecimal coefficient exponent =
      roundRatio (ratio coefficient exponent).1 (ratio coefficient exponent).2 := by
  unfold roundDecimal ratio
  dsimp only
  split
  · rename_i hc
    have hsmall : 2 * (0 * 2 ^ 149) < 10 ^ (-exponent).toNat := by
      rw [Nat.zero_mul]
      exact Nat.pow_pos (by decide)
    rw [hc, Nat.zero_mul, roundRatio_of_small hsmall]
  · rename_i hc
    -- The two answers without rounding, one for each side of what single precision can hold.
    split
    · rename_i he
      have hden : (-exponent).toNat = 0 := by omega
      have hlarge := two_pow_le_ten_pow (e := exponent.toNat) (by omega)
      have hnum : 10 ^ exponent.toNat ≤ coefficient * 10 ^ exponent.toNat :=
        Nat.le_mul_of_pos_left _ (Nat.pos_of_ne_zero hc)
      rw [hden, Nat.pow_zero, roundRatio_of_large (Nat.le_trans hlarge hnum)]
    · split
      · rename_i he
        have hnum : exponent.toNat = 0 := by omega
        rw [hnum, Nat.pow_zero, Nat.mul_one]
        exact (roundRatio_of_small (lt_ten_pow (by omega))).symm
      · cases exponent with
        | ofNat e =>
          have hden : (-Int.ofNat e).toNat = 0 := by
            rw [Int.ofNat_eq_natCast]
            omega
          rw [hden]
          rfl
        | negSucc e =>
          have hnum : (Int.negSucc e).toNat = 0 := rfl
          have hden : (-Int.negSucc e).toNat = e + 1 := rfl
          rw [hnum, hden, Nat.pow_zero, Nat.mul_one]

/-- Zeros moved from the exponent to the coefficient change nothing. -/
theorem roundDecimal_mul_pow (coefficient : Nat) (exponent : Int) (k : Nat) :
    roundDecimal (coefficient * 10 ^ k) (exponent - k) = roundDecimal coefficient exponent := by
  rw [roundDecimal_eq, roundDecimal_eq, ratio, ratio]
  -- The two ratios differ by the power of ten that the larger denominator has more.
  obtain ⟨a, ha⟩ : ∃ a, a = (exponent - k).toNat := ⟨_, rfl⟩
  obtain ⟨b, hb⟩ : ∃ b, b = (-(exponent - k)).toNat - (-exponent).toNat := ⟨_, rfl⟩
  have hnum : k + (exponent - k).toNat = exponent.toNat + b := by omega
  have hden : (-(exponent - k)).toNat = (-exponent).toNat + b := by omega
  rw [Nat.mul_assoc, ← Nat.pow_add, hnum, hden, Nat.pow_add, ← Nat.mul_assoc, Nat.pow_add]
  exact roundRatio_mul_right (Nat.pow_pos (by decide)) _ _

end Lockstep.Binary32
