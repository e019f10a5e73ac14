import Mathlib.Algebra.Group.Nat.Defs
import BestParse.Score.Basic

/-!
# The order of scores

Two scores are compared as numbers by their ranks.  This module shows that the
order fits the sum: rounding is monotone, so a rounded sum is monotone in both
summands, and adding what is at most zero never gains.  No other property of
rounding is used by the searches.

What is not a number stays out: a sum of reachable scores is a number again
(`add_ne_nan`), and so is the sum of a finite score with any number
(`finite_add_ne_nan`).

`Agrees` is equality of numbers, where the two zeros are equal.

A sum of two scores is at most one power of two further from zero than both (`NotBelow.add`),
so it takes many sums to overflow.
-/

namespace BestParse

/-! ## Rounding is monotone -/

theorem div_le_nearestWhole (num den : Nat) : num / den ≤ nearestWhole num den := by
  unfold nearestWhole
  dsimp only
  split <;> omega

theorem nearestWhole_le_succ (num den : Nat) : nearestWhole num den ≤ num / den + 1 := by
  unfold nearestWhole
  dsimp only
  split <;> omega

theorem nearestWhole_mono {m n : Nat} (h : m ≤ n) (den : Nat) :
    nearestWhole m den ≤ nearestWhole n den := by
  have hq : m / den ≤ n / den := Nat.div_le_div_right h
  rcases Nat.lt_or_eq_of_le hq with hlt | heq
  · calc nearestWhole m den ≤ m / den + 1 := nearestWhole_le_succ m den
      _ ≤ n / den := hlt
      _ ≤ nearestWhole n den := div_le_nearestWhole n den
  · -- With the same quotient the greater number has the greater remainder.
    have hr : m % den ≤ n % den := by
      have hm := Nat.div_add_mod m den
      have hn := Nat.div_add_mod n den
      rw [heq] at hm
      omega
    unfold nearestWhole
    dsimp only
    rw [heq]
    split <;> split <;> omega

theorem gridSpacing_eq (n : Nat) : gridSpacing n = 2 ^ (n.log2 - 23) := rfl

/-- A positive number is not rounded below its leading power of two. -/
theorem two_pow_log2_le_roundRatio {n : Nat} (hn : n ≠ 0) : 2 ^ n.log2 ≤ roundRatio n 1 := by
  have hle : 2 ^ n.log2 ≤ n := Nat.log2_self_le hn
  unfold roundRatio
  dsimp only
  rw [Nat.div_one, Nat.one_mul]
  have hdvd : gridSpacing n ∣ 2 ^ n.log2 := Nat.pow_dvd_pow 2 (by omega)
  calc 2 ^ n.log2 = 2 ^ n.log2 / gridSpacing n * gridSpacing n := (Nat.div_mul_cancel hdvd).symm
    _ ≤ n / gridSpacing n * gridSpacing n :=
        Nat.mul_le_mul_right _ (Nat.div_le_div_right hle)
    _ ≤ nearestWhole n (gridSpacing n) * gridSpacing n :=
        Nat.mul_le_mul_right _ (div_le_nearestWhole n _)

/-- A number is not rounded above the next power of two. -/
theorem roundRatio_le_two_pow (n : Nat) : roundRatio n 1 ≤ 2 ^ (n.log2 + 1) := by
  rcases Nat.lt_or_ge n.log2 23 with hsmall | hlarge
  · -- Small numbers are grid points already.
    have hone : gridSpacing n = 1 := by
      rw [gridSpacing_eq, show n.log2 - 23 = 0 by omega, Nat.pow_zero]
    rw [roundRatio_eq_self (by rw [hone]; exact Nat.one_dvd n)]
    exact Nat.le_of_lt Nat.lt_log2_self
  · have hle := nearestWhole_gridSpacing_le n 1
    unfold roundRatio
    dsimp only
    calc nearestWhole n (1 * gridSpacing (n / 1)) * gridSpacing (n / 1)
        ≤ 2 ^ 24 * gridSpacing (n / 1) := Nat.mul_le_mul_right _ hle
      _ = 2 ^ (n.log2 + 1) := by
          rw [Nat.div_one, gridSpacing_eq, ← Nat.pow_add]
          congr 1
          omega

theorem roundRatio_mono {m n : Nat} (h : m ≤ n) : roundRatio m 1 ≤ roundRatio n 1 := by
  rcases Nat.eq_zero_or_pos m with rfl | hm
  · rw [show roundRatio 0 1 = 0 by decide]
    exact Nat.zero_le _
  · have hlog : m.log2 ≤ n.log2 := by
      rw [Nat.le_log2 (by omega)]
      exact Nat.le_trans (Nat.log2_self_le (by omega)) h
    rcases Nat.lt_or_eq_of_le hlog with hlt | heq
    · -- A power of two lies between the two numbers, and rounding respects it.
      calc roundRatio m 1 ≤ 2 ^ (m.log2 + 1) := roundRatio_le_two_pow m
        _ ≤ 2 ^ n.log2 := Nat.pow_le_pow_right (by decide) hlt
        _ ≤ roundRatio n 1 := two_pow_log2_le_roundRatio (by omega)
    · have hspacing : gridSpacing m = gridSpacing n := by rw [gridSpacing_eq, gridSpacing_eq, heq]
      unfold roundRatio
      simp only [Nat.div_one, Nat.one_mul, hspacing]
      exact Nat.mul_le_mul_right _ (nearestWhole_mono h _)

/-- Powers of two below the overflow bound are grid points. -/
theorem fits_two_pow {m : Nat} (hm : m < 128 + 149) : Fits (2 ^ m) :=
  ⟨roundRatio_eq_self (gridSpacing_dvd_two_pow m),
    Nat.lt_of_lt_of_eq (Nat.pow_lt_pow_right (by decide) hm) (Nat.pow_add 2 128 149)⟩

namespace Score

/-! ## The ranks of rounded numbers -/

theorem overflowBound_pos : 0 < overflowBound := by decide

/-- The rank of a whole number of units after rounding. -/
def roundedRank (units : Int) : Int :=
  if units < 0 then -(min (roundRatio units.natAbs 1) overflowBound : Nat)
  else (min (roundRatio units.natAbs 1) overflowBound : Nat)

theorem rank_ofWholeUnits (units : Int) : (ofWholeUnits units).rank = roundedRank units := by
  unfold ofWholeUnits ofUnits roundedRank
  by_cases hfit : roundRatio units.natAbs 1 < overflowBound
  · rw [Nat.min_eq_left (Nat.le_of_lt hfit)]
    by_cases hneg : units < 0
    · by_cases hzero : roundRatio units.natAbs 1 = 0
      · simp [overflowBound_pos, hneg, hzero, rank]
      · simp [hfit, hneg, hzero, rank]
    · simp [hfit, hneg, rank]
  · rw [Nat.min_eq_right (Nat.le_of_not_lt hfit)]
    by_cases hneg : units < 0
    · simp [hfit, hneg, rank]
    · simp [hfit, hneg, rank]

theorem roundedRank_mono {a b : Int} (h : a ≤ b) : roundedRank a ≤ roundedRank b := by
  unfold roundedRank
  by_cases ha : a < 0
  · by_cases hb : b < 0
    · have hround := roundRatio_mono (show b.natAbs ≤ a.natAbs by omega)
      simp only [ha, hb, if_true]
      omega
    · simp only [ha, hb, if_true, if_false]
      omega
  · have hb : ¬ b < 0 := by omega
    have hround := roundRatio_mono (show a.natAbs ≤ b.natAbs by omega)
    simp only [ha, hb, if_false]
    omega

/-- Grid points keep their rank. -/
theorem roundedRank_eq_self {units : Int} (h : Fits units.natAbs) : roundedRank units = units := by
  obtain ⟨hround, hlt⟩ := h
  unfold roundedRank
  rw [hround, Nat.min_eq_left (Nat.le_of_lt hlt)]
  split <;> omega

/-! ## Ranks -/

/-- A finite score lies strictly between the infinities. -/
theorem isFinite_iff_rank {a : Score} :
    a.isFinite = true ↔ -(overflowBound : Int) < a.rank ∧ a.rank < overflowBound := by
  have hpos := overflowBound_pos
  cases a with
  | nan => simp only [isFinite, rank, Bool.false_eq_true, false_iff]; omega
  | negInf => simp only [isFinite, rank, Bool.false_eq_true, false_iff]; omega
  | posInf => simp only [isFinite, rank, Bool.false_eq_true, false_iff]; omega
  | negZero => simp only [isFinite, rank, true_iff]; omega
  | finite units fits =>
      have hlt := fits.2
      simp only [isFinite, rank, true_iff]
      omega

theorem eq_nan_iff_rank {a : Score} : a = .nan ↔ (overflowBound : Int) < a.rank := by
  have hpos := overflowBound_pos
  cases a with
  | nan => simp only [rank, true_iff]; omega
  | negInf => simp only [rank, reduceCtorEq, false_iff]; omega
  | posInf => simp only [rank, reduceCtorEq, false_iff]; omega
  | negZero => simp only [rank, reduceCtorEq, false_iff]; omega
  | finite units fits =>
      have hlt := fits.2
      simp only [rank, reduceCtorEq, false_iff]
      omega

theorem eq_negInf_iff_rank {a : Score} : a = .negInf ↔ a.rank = -(overflowBound : Int) := by
  have hpos := overflowBound_pos
  cases a with
  | nan => simp only [rank, reduceCtorEq, false_iff]; omega
  | negInf => simp only [rank]
  | posInf => simp only [rank, reduceCtorEq, false_iff]; omega
  | negZero => simp only [rank, reduceCtorEq, false_iff]; omega
  | finite units fits =>
      have hlt := fits.2
      simp only [rank, reduceCtorEq, false_iff]
      omega

/-- Nothing ranks below negative infinity. -/
theorem negInf_rank_le (a : Score) : -(overflowBound : Int) ≤ a.rank := by
  have hpos := overflowBound_pos
  cases a with
  | nan => simp only [rank]; omega
  | negInf => simp only [rank]; omega
  | posInf => simp only [rank]; omega
  | negZero => simp only [rank]; omega
  | finite units fits =>
      have hlt := fits.2
      simp only [rank]
      omega

theorem rank_unreachable : Score.unreachable.rank = -(overflowBound : Int) := rfl

theorem isReachable_iff {a : Score} : a.isReachable = true ↔ a ≠ .nan ∧ a ≠ .negInf := by
  have hle := negInf_rank_le a
  rw [isReachable, improves_iff, rank_unreachable, ne_eq a .negInf, eq_negInf_iff_rank]
  constructor
  · rintro ⟨hnan, -, hlt⟩
    exact ⟨hnan, by omega⟩
  · rintro ⟨hnan, hne⟩
    exact ⟨hnan, by decide, by omega⟩

theorem isReachable_of_isFinite {a : Score} (h : a.isFinite = true) : a.isReachable = true := by
  rw [isReachable_iff]
  constructor
  · rintro rfl
    cases h
  · rintro rfl
    cases h

theorem isReachable_iff_rank {a : Score} :
    a.isReachable = true ↔ a ≠ .nan ∧ -(overflowBound : Int) < a.rank := by
  rw [isReachable, improves_iff, rank_unreachable]
  constructor
  · rintro ⟨hnan, -, hlt⟩
    exact ⟨hnan, hlt⟩
  · rintro ⟨hnan, hlt⟩
    exact ⟨hnan, by decide, hlt⟩

theorem isReachable_of_improves {a b : Score} (h : a.improves b = true) :
    a.isReachable = true := by
  obtain ⟨hnum, -, hlt⟩ := improves_iff.1 h
  exact isReachable_iff_rank.2 ⟨hnum, Int.lt_of_le_of_lt (negInf_rank_le _) hlt⟩

/-- What is at least reachable is reachable. -/
theorem isReachable_mono {a b : Score} (ha : a.isReachable = true) (hb : b ≠ .nan)
    (hle : a.rank ≤ b.rank) : b.isReachable = true := by
  rw [isReachable_iff_rank] at ha ⊢
  exact ⟨hb, Int.lt_of_lt_of_le ha.2 hle⟩

/-- A number is reachable, or it is negative infinity. -/
theorem eq_unreachable_of_not_isReachable {a : Score} (hnan : a ≠ .nan)
    (h : ¬ a.isReachable = true) : a = .unreachable := by
  rw [isReachable_iff] at h
  by_cases heq : a = .negInf
  · exact heq
  · exact absurd ⟨hnan, heq⟩ h

theorem not_improves_of_improves {a b : Score} (h : a.improves b = true) :
    b.improves a = false := by
  refine Bool.eq_false_iff.2 fun hback => ?_
  cases (improves_trans h hback).symm.trans (not_improves_self a)

/-- A candidate that does not improve a number is at most that number. -/
theorem rank_le_of_not_improves {a b : Score} (ha : a ≠ .nan) (hb : b ≠ .nan)
    (h : ¬ a.improves b = true) : a.rank ≤ b.rank := by
  rw [improves_iff] at h
  rcases Int.lt_or_le b.rank a.rank with hlt | hle
  · exact absurd ⟨ha, hb, hlt⟩ h
  · exact hle

theorem isAtMost_iff {a b : Score} :
    a.isAtMost b = true ↔ a ≠ .nan ∧ b ≠ .nan ∧ a.rank ≤ b.rank := by
  simp [isAtMost]

/-! ## Equality of numbers -/

/-- Both are numbers, and they are the same one.  The two zeros agree. -/
def Agrees (a b : Score) : Prop := a ≠ .nan ∧ b ≠ .nan ∧ a.rank = b.rank

instance (a b : Score) : Decidable (Agrees a b) := inferInstanceAs (Decidable (_ ∧ _ ∧ _))

theorem Agrees.isReachable_eq {a b : Score} (h : Agrees a b) : a.isReachable = b.isReachable := by
  rw [Bool.eq_iff_iff, isReachable_iff_rank, isReachable_iff_rank, h.2.2]
  exact and_congr_left fun _ => ⟨fun _ => h.2.1, fun _ => h.1⟩

/-! ## Sums -/

/-- Unless both are negative zeros, finite scores are summed by their ranks. -/
theorem add_eq_ofWholeUnits {a b : Score} (ha : a.isFinite = true) (hb : b.isFinite = true)
    (hzero : ¬ (a = .negZero ∧ b = .negZero)) : a + b = ofWholeUnits (a.rank + b.rank) := by
  change add a b = _
  cases a with
  | nan => cases ha
  | negInf => cases ha
  | posInf => cases ha
  | negZero =>
      cases b with
      | nan => cases hb
      | negInf => cases hb
      | posInf => cases hb
      | negZero => exact absurd ⟨rfl, rfl⟩ hzero
      | finite units fits => rfl
  | finite units fits =>
      cases b with
      | nan => cases hb
      | negInf => cases hb
      | posInf => cases hb
      | negZero => rfl
      | finite units' fits' => rfl

theorem add_comm (a b : Score) : a + b = b + a := by
  by_cases hfin : a.isFinite = true ∧ b.isFinite = true
  · by_cases hzero : a = .negZero ∧ b = .negZero
    · rw [hzero.1, hzero.2]
    · rw [add_eq_ofWholeUnits hfin.1 hfin.2 hzero,
        add_eq_ofWholeUnits hfin.2 hfin.1 (fun h => hzero ⟨h.2, h.1⟩), Int.add_comm]
  · -- One of the two is decided by its constructor alone.
    change add a b = add b a
    cases a with
    | nan => cases b <;> rfl
    | negInf => cases b <;> rfl
    | posInf => cases b <;> rfl
    | negZero =>
        cases b with
        | nan => rfl
        | negInf => rfl
        | posInf => rfl
        | negZero => rfl
        | finite units fits => exact absurd ⟨rfl, rfl⟩ hfin
    | finite units fits =>
        cases b with
        | nan => rfl
        | negInf => rfl
        | posInf => rfl
        | negZero => exact absurd ⟨rfl, rfl⟩ hfin
        | finite units' fits' => exact absurd ⟨rfl, rfl⟩ hfin

theorem nan_add (a : Score) : .nan + a = Score.nan := by
  change add .nan a = .nan
  cases a <;> rfl

theorem add_nan (a : Score) : a + .nan = Score.nan := by rw [add_comm, nan_add]

theorem posInf_add {a : Score} (h : a.isReachable = true) : .posInf + a = Score.posInf := by
  change add .posInf a = .posInf
  cases a with
  | nan => cases h
  | negInf => cases h
  | posInf => rfl
  | negZero => rfl
  | finite units fits => rfl

/-- A sum with negative infinity is negative infinity, if it is a number. -/
theorem negInf_add {a : Score} (h : .negInf + a ≠ Score.nan) : .negInf + a = Score.negInf := by
  change add .negInf a ≠ .nan at h
  change add .negInf a = .negInf
  cases a with
  | nan => exact absurd rfl h
  | negInf => rfl
  | posInf => exact absurd rfl h
  | negZero => rfl
  | finite units fits => rfl

/-- The sum of finite scores is the rounded sum of their ranks. -/
theorem rank_add {a b : Score} (ha : a.isFinite = true) (hb : b.isFinite = true) :
    (a + b).rank = roundedRank (a.rank + b.rank) := by
  by_cases hzero : a = .negZero ∧ b = .negZero
  · obtain ⟨rfl, rfl⟩ := hzero
    exact (@roundedRank_eq_self 0 fits_zero).symm
  · rw [add_eq_ofWholeUnits ha hb hzero, rank_ofWholeUnits]

/-- Reachable scores are finite or positive infinity. -/
theorem isFinite_or_eq_posInf {a : Score} (h : a.isReachable = true) :
    a.isFinite = true ∨ a = .posInf := by
  cases a with
  | nan => cases h
  | negInf => cases h
  | posInf => exact Or.inr rfl
  | negZero => exact Or.inl rfl
  | finite units fits => exact Or.inl rfl

theorem ofWholeUnits_ne_nan (units : Int) : ofWholeUnits units ≠ .nan := by
  unfold ofWholeUnits ofUnits
  split
  · split
    · split
      · exact nofun
      · exact nofun
    · exact nofun
  · split
    · exact nofun
    · exact nofun

/-- The sum of finite scores is a number. -/
theorem isFinite_add_ne_nan {a b : Score} (ha : a.isFinite = true) (hb : b.isFinite = true) :
    a + b ≠ .nan := by
  have hrank := rank_add ha hb
  rw [← rank_ofWholeUnits] at hrank
  have hnum := ofWholeUnits_ne_nan (a.rank + b.rank)
  rw [Ne, eq_nan_iff_rank] at hnum ⊢
  rw [hrank]
  exact hnum

/-- The sum of reachable scores is a number. -/
theorem add_ne_nan {a b : Score} (ha : a.isReachable = true) (hb : b.isReachable = true) :
    a + b ≠ .nan := by
  rcases isFinite_or_eq_posInf ha with hfa | rfl
  · rcases isFinite_or_eq_posInf hb with hfb | rfl
    · exact isFinite_add_ne_nan hfa hfb
    · rw [add_comm, posInf_add ha]
      exact nofun
  · rw [posInf_add hb]
    exact nofun

/-- The sum of a finite score and a number is a number. -/
theorem finite_add_ne_nan {a b : Score} (ha : a.isFinite = true) (hb : b ≠ .nan) :
    a + b ≠ .nan := by
  by_cases hinf : b = .negInf
  · subst hinf
    change add a .negInf ≠ .nan
    cases a with
    | nan => cases ha
    | negInf => cases ha
    | posInf => cases ha
    | negZero => exact nofun
    | finite units fits => exact nofun
  · exact add_ne_nan (isReachable_of_isFinite ha) (isReachable_iff.2 ⟨hb, hinf⟩)

/-- A sum is monotone in both summands. -/
theorem rank_add_le_add {a b a' b' : Score} (hsum : a + b ≠ .nan) (ha : a.rank ≤ a'.rank)
    (hb : b.rank ≤ b'.rank) : (a + b).rank ≤ (a' + b').rank := by
  have hnan : ∀ {x y : Score}, x = .nan → y.rank ≤ x.rank := by
    intro x y hx
    have hx' := eq_nan_iff_rank.1 hx
    by_cases hy : y = .nan
    · exact Int.le_of_eq (congrArg rank (hy.trans hx.symm))
    · rw [eq_nan_iff_rank] at hy
      omega
  -- Below everything: a summand is negative infinity.
  by_cases hia : a = .negInf
  · subst hia
    rw [negInf_add hsum]
    exact negInf_rank_le _
  by_cases hib : b = .negInf
  · subst hib
    rw [add_comm] at hsum ⊢
    rw [negInf_add hsum]
    exact negInf_rank_le _
  have hra : a.isReachable = true := by
    refine isReachable_iff.2 ⟨?_, hia⟩
    rintro rfl
    exact hsum (nan_add b)
  have hrb : b.isReachable = true := by
    refine isReachable_iff.2 ⟨?_, hib⟩
    rintro rfl
    exact hsum (add_nan a)
  -- Above everything: the greater sum is not a number or positive infinity.
  by_cases hna' : a' = .nan
  · exact hnan (by rw [hna', nan_add])
  by_cases hnb' : b' = .nan
  · exact hnan (by rw [hnb', add_nan])
  have hra' := isReachable_mono hra hna' ha
  have hrb' := isReachable_mono hrb hnb' hb
  have hle : (a + b).rank ≤ (overflowBound : Int) := by
    rw [Ne, eq_nan_iff_rank] at hsum
    omega
  rcases isFinite_or_eq_posInf hra' with hfa' | rfl
  · rcases isFinite_or_eq_posInf hrb' with hfb' | rfl
    · -- All four are finite, and rounding is monotone.
      have hfa : a.isFinite = true := by
        rw [isFinite_iff_rank] at hfa' ⊢
        exact ⟨(isReachable_iff_rank.1 hra).2, Int.lt_of_le_of_lt ha hfa'.2⟩
      have hfb : b.isFinite = true := by
        rw [isFinite_iff_rank] at hfb' ⊢
        exact ⟨(isReachable_iff_rank.1 hrb).2, Int.lt_of_le_of_lt hb hfb'.2⟩
      rw [rank_add hfa hfb, rank_add hfa' hfb']
      exact roundedRank_mono (Int.add_le_add ha hb)
    · rw [add_comm a' .posInf, posInf_add hra']
      exact hle
  · rw [posInf_add hrb']
    exact hle

theorem rank_certain_add {a : Score} : (certain + a).rank = a.rank := by
  cases a with
  | nan => rfl
  | negInf => rfl
  | posInf => rfl
  | negZero =>
      rw [rank_add rfl rfl]
      exact @roundedRank_eq_self 0 fits_zero
  | finite units fits =>
      rw [rank_add rfl rfl, certain, rank, rank, Int.zero_add]
      exact roundedRank_eq_self fits

/-- Adding what is at most zero does not gain. -/
theorem rank_add_le {a b : Score} (ha : a.rank ≤ 0) (hsum : a + b ≠ .nan) :
    (a + b).rank ≤ b.rank := by
  rw [← rank_certain_add (a := b)]
  exact rank_add_le_add hsum ha (Int.le_refl _)

/-! ## The scores of derivations -/

theorem extend_eq_some_iff {logprob child x : Score} :
    extend logprob child = some x ↔ child.isReachable = true ∧ logprob + child = x := by
  unfold extend
  split
  · next h => simp [h]
  · next h => simp [h]

theorem combine_eq_some_iff {logprob left right x : Score} :
    combine logprob left right = some x ↔
      left.isReachable = true ∧ right.isReachable = true ∧ logprob + (left + right) = x := by
  unfold combine
  split
  · next h =>
    rw [Bool.and_eq_true] at h
    simp [h]
  · next h =>
    rw [Bool.and_eq_true] at h
    simp only [reduceCtorEq, false_iff]
    rintro ⟨hl, hr, -⟩
    exact h ⟨hl, hr⟩

theorem extend_ne_nan {logprob child x : Score} (hlog : logprob.isFinite = true)
    (h : extend logprob child = some x) : x ≠ .nan := by
  obtain ⟨hchild, rfl⟩ := extend_eq_some_iff.1 h
  exact finite_add_ne_nan hlog (isReachable_iff.1 hchild).1

theorem combine_ne_nan {logprob left right x : Score} (hlog : logprob.isFinite = true)
    (h : combine logprob left right = some x) : x ≠ .nan := by
  obtain ⟨hleft, hright, rfl⟩ := combine_eq_some_iff.1 h
  exact finite_add_ne_nan hlog (add_ne_nan hleft hright)

/-- A better child gives a derivation at least as good. -/
theorem extend_mono {logprob child child' x : Score} (hlog : logprob.isFinite = true)
    (hnum : child' ≠ .nan) (hle : child.rank ≤ child'.rank) (h : extend logprob child = some x) :
    ∃ x', extend logprob child' = some x' ∧ x.rank ≤ x'.rank := by
  have hx := extend_ne_nan hlog h
  obtain ⟨hchild, rfl⟩ := extend_eq_some_iff.1 h
  refine ⟨logprob + child', ?_, ?_⟩
  · exact extend_eq_some_iff.2 ⟨isReachable_mono hchild hnum hle, rfl⟩
  · exact rank_add_le_add hx (Int.le_refl _) hle

/-- Better children give a derivation at least as good. -/
theorem combine_mono {logprob left left' right right' x : Score} (hlog : logprob.isFinite = true)
    (hnuml : left' ≠ .nan) (hnumr : right' ≠ .nan) (hlel : left.rank ≤ left'.rank)
    (hler : right.rank ≤ right'.rank) (h : combine logprob left right = some x) :
    ∃ x', combine logprob left' right' = some x' ∧ x.rank ≤ x'.rank := by
  have hx := combine_ne_nan hlog h
  obtain ⟨hleft, hright, rfl⟩ := combine_eq_some_iff.1 h
  have hsum : left + right ≠ .nan := add_ne_nan hleft hright
  refine ⟨logprob + (left' + right'), ?_, ?_⟩
  · exact combine_eq_some_iff.2
      ⟨isReachable_mono hleft hnuml hlel, isReachable_mono hright hnumr hler, rfl⟩
  · exact rank_add_le_add hx (Int.le_refl _) (rank_add_le_add hsum hlel hler)

/-- With a production of probability at most one, no derivation is better than its
only child. -/
theorem extend_le {logprob child x : Score} (hlog : logprob.isFinite = true)
    (hneg : logprob.rank ≤ 0) (h : extend logprob child = some x) : x.rank ≤ child.rank := by
  have hx := extend_ne_nan hlog h
  obtain ⟨-, rfl⟩ := extend_eq_some_iff.1 h
  exact rank_add_le hneg hx

/-- With a production of probability at most one, no derivation is better than either of
two children that are at most zero. -/
theorem combine_le {logprob left right x : Score} (hlog : logprob.isFinite = true)
    (hneg : logprob.rank ≤ 0) (hl : left.rank ≤ 0) (hr : right.rank ≤ 0)
    (h : combine logprob left right = some x) : x.rank ≤ left.rank ∧ x.rank ≤ right.rank := by
  have hx := combine_ne_nan hlog h
  obtain ⟨hleft, hright, rfl⟩ := combine_eq_some_iff.1 h
  have hsum : left + right ≠ .nan := add_ne_nan hleft hright
  have hle : (logprob + (left + right)).rank ≤ (left + right).rank := rank_add_le hneg hx
  constructor
  · refine Int.le_trans hle ?_
    rw [add_comm] at hsum ⊢
    exact rank_add_le hr hsum
  · exact Int.le_trans hle (rank_add_le hl hsum)

/-! ## Sums that do not overflow -/

/-- The score is at least minus that power of two, in units. -/
def NotBelow (m : Nat) (a : Score) : Prop := -((2 ^ m : Nat) : Int) ≤ a.rank

theorem NotBelow.mono {m n : Nat} {a : Score} (h : a.NotBelow m) (hmn : m ≤ n) : a.NotBelow n := by
  have hpow := Nat.pow_le_pow_right (n := 2) (by decide) hmn
  unfold NotBelow at h ⊢
  omega

/-- A sum loses at most one power of two. -/
theorem NotBelow.add {a b : Score} {m : Nat} (ha : a.NotBelow m) (hb : b.NotBelow m)
    (hm : m + 1 < 128 + 149) : (a + b).NotBelow (m + 1) := by
  have hfits : ∀ n < 128 + 149, Fits (-((2 ^ n : Nat) : Int)).natAbs := by
    intro n hn
    rw [Int.natAbs_neg, Int.natAbs_natCast]
    exact fits_two_pow hn
  have hle := rank_add_le_add (a := .finite _ (hfits m (by omega)))
    (b := .finite _ (hfits m (by omega))) (isFinite_add_ne_nan rfl rfl) ha hb
  have hsum : -((2 ^ m : Nat) : Int) + -((2 ^ m : Nat) : Int) = -((2 ^ (m + 1) : Nat) : Int) := by
    rw [Nat.pow_succ]
    omega
  rw [rank_add rfl rfl, rank, hsum, roundedRank_eq_self (hfits (m + 1) hm)] at hle
  exact hle

end Score
end BestParse
