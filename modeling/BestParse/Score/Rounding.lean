/-!
# Rounding to twenty-four significant bits

Scores are kept with twenty-four significant bits.  This module holds the
arithmetic behind that: the *spacing* of the grid around a quantity, the grid
point *nearest* to it with ties going to the even multiple, and the predicate
`Fits` of the whole numbers that are grid points below the overflow bound.

Quantities are ratios `num / den` of whole numbers, so the same function rounds
an exact sum (`den = 1`), a quotient and a decimal fraction.

`roundRatio_roundRatio` says that rounding twice is rounding once, so every
rounded number below the bound `Fits`.
-/

namespace BestParse

/-! ## The grid -/

/-- The whole number nearest to `num / den`; a tie goes to the even one. -/
def nearestWhole (num den : Nat) : Nat :=
  let q := num / den
  let r := num % den
  if 2 * r < den ∨ (2 * r = den ∧ q % 2 = 0) then q else q + 1

/-- The distance of neighbouring grid points around a number: one below `2 ^ 24`,
doubling at every power of two from there on. -/
def gridSpacing (n : Nat) : Nat := Nat.pow 2 (n.log2 - 23)

/-- The grid point nearest to `num / den`. -/
def roundRatio (num den : Nat) : Nat :=
  let spacing := gridSpacing (num / den)
  nearestWhole num (den * spacing) * spacing

/-- Rounded magnitudes at or above this bound are infinite.  It is `2 ^ 128`,
counted in units of `2 ^ (-149)`. -/
def overflowBound : Nat := Nat.pow 2 128 * Nat.pow 2 149

/-- The grid points below the overflow bound. -/
def Fits (n : Nat) : Prop := roundRatio n 1 = n ∧ n < overflowBound

instance (n : Nat) : Decidable (Fits n) := inferInstanceAs (Decidable (_ ∧ _))

/-! ## Rounding keeps grid points -/

theorem gridSpacing_pos (n : Nat) : 0 < gridSpacing n := Nat.two_pow_pos _

/-- A multiple of `den` is its own nearest whole number. -/
theorem nearestWhole_mul_right (q : Nat) {den : Nat} (hden : 0 < den) :
    nearestWhole (q * den) den = q := by
  simp [nearestWhole, Nat.mul_div_cancel _ hden, hden]

/-- A number that the spacing around it divides is a grid point. -/
theorem roundRatio_eq_self {n : Nat} (h : gridSpacing n ∣ n) : roundRatio n 1 = n := by
  obtain ⟨q, hq⟩ := h
  have hpos := gridSpacing_pos n
  have hn : n = q * gridSpacing n := by rw [Nat.mul_comm]; exact hq
  unfold roundRatio
  simp only [Nat.div_one, Nat.one_mul]
  calc nearestWhole n (gridSpacing n) * gridSpacing n
      = nearestWhole (q * gridSpacing n) (gridSpacing n) * gridSpacing n := by rw [← hn]
    _ = q * gridSpacing n := by rw [nearestWhole_mul_right q hpos]
    _ = n := hn.symm

/-- At most twenty-four significant bits make a grid point. -/
theorem gridSpacing_dvd_mul_two_pow {m : Nat} (hm : m < Nat.pow 2 24) (k : Nat) :
    gridSpacing (m * Nat.pow 2 k) ∣ m * Nat.pow 2 k := by
  change gridSpacing (m * 2 ^ k) ∣ m * 2 ^ k
  rcases Nat.eq_zero_or_pos m with rfl | hpos
  · simp
  · have hlog : (m * 2 ^ k).log2 < 24 + k := by
      have hne : m * 2 ^ k ≠ 0 := Nat.mul_ne_zero (by omega) (Nat.ne_of_gt (Nat.two_pow_pos k))
      rw [Nat.log2_lt hne, Nat.pow_add]
      exact Nat.mul_lt_mul_of_pos_right hm (Nat.two_pow_pos k)
    exact Nat.dvd_trans (Nat.pow_dvd_pow 2 (by omega)) (Nat.dvd_mul_left _ _)

theorem gridSpacing_dvd_two_pow (k : Nat) : gridSpacing (Nat.pow 2 k) ∣ Nat.pow 2 k := by
  change 2 ^ ((2 ^ k).log2 - 23) ∣ 2 ^ k
  rw [Nat.log2_two_pow]
  exact Nat.pow_dvd_pow 2 (by omega)

/-- Before scaling, a rounded number has at most twenty-four bits or is `2 ^ 24`. -/
theorem nearestWhole_gridSpacing_le (num den : Nat) :
    nearestWhole num (den * gridSpacing (num / den)) ≤ Nat.pow 2 24 := by
  change _ ≤ 2 ^ 24
  have hq : num / (den * gridSpacing (num / den)) < 2 ^ 24 := by
    rw [← Nat.div_div_eq_div_mul]
    apply Nat.div_lt_of_lt_mul
    rcases Nat.eq_zero_or_pos (num / den) with h0 | hpos
    · rw [h0]; exact Nat.mul_pos (gridSpacing_pos _) (Nat.two_pow_pos _)
    · change num / den < 2 ^ ((num / den).log2 - 23) * 2 ^ 24
      rw [← Nat.pow_add]
      refine Nat.lt_of_lt_of_le Nat.lt_log2_self ?_
      exact Nat.pow_le_pow_right (by decide) (by omega)
  unfold nearestWhole
  dsimp only
  split <;> omega

/-- Rounding gives a grid point. -/
theorem roundRatio_roundRatio (num den : Nat) :
    roundRatio (roundRatio num den) 1 = roundRatio num den := by
  apply roundRatio_eq_self
  have hle := nearestWhole_gridSpacing_le num den
  unfold roundRatio
  dsimp only
  rcases Nat.lt_or_eq_of_le hle with hlt | heq
  · exact gridSpacing_dvd_mul_two_pow hlt _
  · rw [heq]
    have hdvd := gridSpacing_dvd_two_pow (24 + ((num / den).log2 - 23))
    rw [Nat.pow_eq, Nat.pow_add] at hdvd
    exact hdvd

/-- A rounded number below the bound fits. -/
theorem fits_roundRatio {num den : Nat} (h : roundRatio num den < overflowBound) :
    Fits (roundRatio num den) :=
  ⟨roundRatio_roundRatio num den, h⟩

theorem fits_zero : Fits 0 := by decide

end BestParse
