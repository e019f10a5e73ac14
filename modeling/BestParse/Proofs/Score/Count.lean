import BestParse.Proofs.Score.Order
import BestParse.Score.Bits

/-!
# Counting scores

There are fewer than `2 ^ 32` numbers among the scores.  `ordinal` counts a score
from below, by the word of its magnitude, and a strict improvement raises the
count (`ordinal_lt_of_improves`).  So nothing improves `2 ^ 32` times in a row,
which bounds every search that only goes up.
-/

namespace BestParse
namespace Score

/-! ## The words of magnitudes -/

theorem gridSpacing_dvd_of_fits {n : Nat} (h : Fits n) : gridSpacing n ∣ n := by
  have hround := h.1
  unfold roundRatio at hround
  simp only [Nat.div_one, Nat.one_mul] at hround
  exact ⟨_, by rw [Nat.mul_comm]; exact hround.symm⟩

theorem div_gridSpacing_lt (n : Nat) : n / gridSpacing n < 2 ^ 24 := by
  rw [Nat.div_lt_iff_lt_mul (gridSpacing_pos n)]
  calc n < 2 ^ (n.log2 + 1) := Nat.lt_log2_self
    _ ≤ 2 ^ (24 + (n.log2 - 23)) := Nat.pow_le_pow_right (by decide) (by omega)
    _ = 2 ^ 24 * gridSpacing n := by rw [Nat.pow_add, gridSpacing_eq]

theorem le_div_gridSpacing {n : Nat} (h : 23 ≤ n.log2) : 2 ^ 23 ≤ n / gridSpacing n := by
  have hne : n ≠ 0 := by
    rintro rfl
    simp at h
  rw [Nat.le_div_iff_mul_le (gridSpacing_pos n), gridSpacing_eq, ← Nat.pow_add,
    show 23 + (n.log2 - 23) = n.log2 by omega]
  exact Nat.log2_self_le hne

/-- The words of grid points are ordered as the grid points are. -/
theorem magnitudeBits_lt {m n : Nat} (hm : Fits m) (hn : Fits n) (h : m < n) :
    magnitudeBits m < magnitudeBits n := by
  have hlog : m.log2 ≤ n.log2 := by
    rcases Nat.eq_zero_or_pos m with rfl | hpos
    · simp
    · rw [Nat.le_log2 (by omega)]
      exact Nat.le_trans (Nat.log2_self_le (by omega)) (Nat.le_of_lt h)
  unfold magnitudeBits
  rcases Nat.lt_or_eq_of_le (Nat.sub_le_sub_right hlog 23) with hlt | heq
  · -- The exponent is greater, and a full fraction makes up for it.
    have hsmall := div_gridSpacing_lt m
    have hlarge := le_div_gridSpacing (n := n) (by omega)
    have hstep : (m.log2 - 23 + 1) * 0x800000 ≤ (n.log2 - 23) * 0x800000 :=
      Nat.mul_le_mul_right _ hlt
    omega
  · -- The spacing is the same, so the multiples compare as the numbers do.
    have hspacing : gridSpacing m = gridSpacing n := by rw [gridSpacing_eq, gridSpacing_eq, heq]
    have hdiv : m / gridSpacing m < n / gridSpacing n := by
      rw [hspacing]
      refine Nat.lt_of_mul_lt_mul_right (a := gridSpacing n) ?_
      rw [Nat.div_mul_cancel (gridSpacing_dvd_of_fits hn), ← hspacing,
        Nat.div_mul_cancel (gridSpacing_dvd_of_fits hm)]
      exact h
    rw [heq]
    omega

theorem magnitudeBits_lt_infinityBits {n : Nat} (h : n < overflowBound) :
    magnitudeBits n < infinityBits := by
  have hlog : n.log2 < 128 + 149 := by
    rcases Nat.eq_zero_or_pos n with rfl | hpos
    · simp
    · refine (Nat.log2_lt (by omega)).2 ?_
      calc n < 2 ^ 128 * 2 ^ 149 := h
        _ = 2 ^ (128 + 149) := (Nat.pow_add 2 128 149).symm
  have hdiv := div_gridSpacing_lt n
  have hexp : (n.log2 - 23) * 0x800000 ≤ 253 * 0x800000 := Nat.mul_le_mul_right _ (by omega)
  unfold magnitudeBits infinityBits
  omega

/-! ## Counting from below -/

/-- The place of a number among all scores that are numbers. -/
def ordinal : Score → Nat
  | .nan => 0
  | .negInf => signBit - infinityBits
  | .posInf => signBit + infinityBits
  | .negZero => signBit
  | .finite units _ =>
    if units < 0 then signBit - magnitudeBits units.natAbs
    else signBit + magnitudeBits units.natAbs

theorem infinityBits_lt_signBit : infinityBits < signBit := by decide

theorem ordinal_lt (a : Score) : a.ordinal < 2 ^ 32 := by
  have hinf := infinityBits_lt_signBit
  have hsign : signBit + signBit = 2 ^ 32 := by decide
  cases a with
  | nan => simp only [ordinal]; omega
  | negInf => simp only [ordinal]; omega
  | posInf => simp only [ordinal]; omega
  | negZero => simp only [ordinal]; omega
  | finite units fits =>
      have hbits := magnitudeBits_lt_infinityBits fits.2
      simp only [ordinal]
      split <;> omega

theorem ordinal_negInf_lt {units : Int} (fits : Fits units.natAbs) :
    signBit - infinityBits < (finite units fits).ordinal := by
  have hinf := infinityBits_lt_signBit
  have hbits := magnitudeBits_lt_infinityBits fits.2
  simp only [ordinal]
  split <;> omega

theorem ordinal_lt_posInf {units : Int} (fits : Fits units.natAbs) :
    (finite units fits).ordinal < signBit + infinityBits := by
  have hbits := magnitudeBits_lt_infinityBits fits.2
  simp only [ordinal]
  split <;> omega

theorem magnitudeBits_zero : magnitudeBits 0 = 0 := by decide

/-- The count of finite scores follows their units. -/
theorem ordinal_finite_lt {a b : Int} (ha : Fits a.natAbs) (hb : Fits b.natAbs) (h : a < b) :
    (finite a ha).ordinal < (finite b hb).ordinal := by
  have hinf := infinityBits_lt_signBit
  have hbitsa := magnitudeBits_lt_infinityBits ha.2
  simp only [ordinal]
  by_cases hna : a < 0
  · have hpos : 0 < magnitudeBits a.natAbs := by
      have := magnitudeBits_lt fits_zero ha (by omega)
      omega
    by_cases hnb : b < 0
    · have hlt := magnitudeBits_lt hb ha (by omega)
      simp only [hna, hnb, if_true]
      omega
    · simp only [hna, hnb, if_true, if_false]
      omega
  · have hnb : ¬ b < 0 := by omega
    have hlt := magnitudeBits_lt ha hb (by omega)
    simp only [hna, hnb, if_false]
    omega

/-- A strict improvement is counted. -/
theorem ordinal_lt_of_improves {a b : Score} (h : a.improves b = true) : b.ordinal < a.ordinal := by
  obtain ⟨hna, hnb, hlt⟩ := improves_iff.1 h
  have hinf := infinityBits_lt_signBit
  have hpos : 0 < infinityBits := by decide
  have hbound := overflowBound_pos
  have hzero : (finite 0 fits_zero).ordinal = signBit := by
    simp [ordinal, magnitudeBits_zero]
  cases b with
  | nan => exact absurd rfl hnb
  | negInf =>
      cases a with
      | nan => exact absurd rfl hna
      | negInf => exact absurd hlt (Int.lt_irrefl _)
      | posInf => simp only [ordinal]; omega
      | negZero => simp only [ordinal]; omega
      | finite units fits => exact ordinal_negInf_lt fits
  | posInf =>
      have hle : a.rank ≤ (overflowBound : Int) := by
        rw [Ne, eq_nan_iff_rank] at hna
        omega
      exact absurd (Int.lt_of_lt_of_le hlt hle) (Int.lt_irrefl _)
  | negZero =>
      cases a with
      | nan => exact absurd rfl hna
      | negInf => simp only [rank] at hlt; omega
      | posInf => simp only [ordinal]; omega
      | negZero => exact absurd hlt (Int.lt_irrefl _)
      | finite units fits =>
          rw [show negZero.ordinal = signBit from rfl, ← hzero]
          exact @ordinal_finite_lt 0 units fits_zero fits hlt
  | finite units fits =>
      cases a with
      | nan => exact absurd rfl hna
      | negInf =>
          have := fits.2
          simp only [rank] at hlt
          omega
      | posInf => exact ordinal_lt_posInf fits
      | negZero =>
          rw [show negZero.ordinal = signBit from rfl, ← hzero]
          exact @ordinal_finite_lt units 0 fits fits_zero hlt
      | finite units' fits' => exact ordinal_finite_lt fits fits' hlt

end Score
end BestParse
