import BestParse.Chart.Address

/-!
# Addresses are in bounds and apart

The cells of one start form a row, and the row after a start begins where the row
of that start ends (`rowStart_succ`).  So different spans have different places,
all of them among the places of the chart, and slots and layers follow by division
with remainder.
-/

namespace BestParse
namespace Address

/-! ## Rows of cells -/

/-- The place of the first cell of a start. -/
def rowStart (n start : Nat) : Nat := start * (2 * n - start + 1) / 2

theorem rowStart_succ {n start : Nat} (h : start < n) :
    rowStart n (start + 1) = rowStart n start + (n - start) := by
  obtain ⟨k, rfl⟩ := Nat.exists_eq_add_of_lt h
  have hleft : 2 * (start + k + 1) - (start + 1) + 1 = start + 2 * k + 2 := by omega
  have hright : 2 * (start + k + 1) - start + 1 = start + 2 * k + 3 := by omega
  have hmul : (start + 1) * (start + 2 * k + 2) = start * (start + 2 * k + 3) + (k + 1) * 2 := by
    simp only [Nat.add_mul, Nat.mul_add]
    omega
  rw [rowStart, rowStart, hleft, hright, hmul, Nat.add_mul_div_right _ _ (by decide)]
  omega

theorem rowStart_mono {n start start' : Nat} (h : start ≤ start') (hn : start' ≤ n) :
    rowStart n start ≤ rowStart n start' := by
  induction h with
  | refl => exact Nat.le_refl _
  | @step m _ ih =>
      have hrow := @rowStart_succ n m hn
      have hle := ih (Nat.le_of_succ_le hn)
      rw [hrow]
      omega

theorem rowStart_self (n : Nat) : rowStart n n = cells n := by
  rw [rowStart, cells, show 2 * n - n + 1 = n + 1 by omega]

theorem cell_eq (n start stop : Nat) : cell n start stop = rowStart n start + (stop - start - 1) :=
  rfl

/-- A cell lies in the row of its start. -/
theorem cell_lt_rowStart_succ {n start stop : Nat} (h : IsSpan n start stop) :
    cell n start stop < rowStart n (start + 1) := by
  obtain ⟨hlt, hle⟩ := h
  rw [rowStart_succ (by omega), cell_eq]
  omega

/-! ## Places in bounds -/

theorem cell_lt {n start stop : Nat} (h : IsSpan n start stop) : cell n start stop < cells n := by
  have hrow := cell_lt_rowStart_succ h
  obtain ⟨hlt, hle⟩ := h
  have hmono := rowStart_mono (show start + 1 ≤ n by omega) (Nat.le_refl n)
  rw [rowStart_self] at hmono
  omega

theorem mul_add_lt {a b x k : Nat} (ha : a < b) (hx : x < k) : a * k + x < b * k := by
  have hle : (a + 1) * k ≤ b * k := Nat.mul_le_mul_right k ha
  rw [Nat.add_mul, Nat.one_mul] at hle
  omega

theorem slot_lt {n symbols start stop nt : Nat} (h : IsSpan n start stop) (hnt : nt < symbols) :
    slot n symbols start stop nt < cells n * symbols :=
  mul_add_lt (cell_lt h) hnt

theorem layer_lt {layers slots slot d : Nat} (h : slot < slots) (hd : d < layers) :
    layer layers slot d < slots * layers :=
  mul_add_lt h hd

/-! ## Different places -/

theorem cell_inj {n start stop start' stop' : Nat} (h : IsSpan n start stop)
    (h' : IsSpan n start' stop') (heq : cell n start stop = cell n start' stop') :
    start = start' ∧ stop = stop' := by
  have hrow := cell_lt_rowStart_succ h
  have hrow' := cell_lt_rowStart_succ h'
  obtain ⟨hlt, hle⟩ := h
  obtain ⟨hlt', hle'⟩ := h'
  rcases Nat.lt_trichotomy start start' with hs | rfl | hs
  · -- An earlier start has an earlier row.
    have hmono := rowStart_mono (show start + 1 ≤ start' by omega) (show start' ≤ n by omega)
    rw [cell_eq n start' stop'] at heq
    omega
  · rw [cell_eq, cell_eq] at heq
    omega
  · have hmono := rowStart_mono (show start' + 1 ≤ start by omega) (show start ≤ n by omega)
    rw [cell_eq n start stop] at heq
    omega

theorem mul_add_inj {a b x y k : Nat} (hx : x < k) (hy : y < k) (h : a * k + x = b * k + y) :
    a = b ∧ x = y := by
  rcases Nat.lt_trichotomy a b with hab | rfl | hab
  · have hlt := mul_add_lt (k := k) hab hx
    omega
  · omega
  · have hlt := mul_add_lt (k := k) hab hy
    omega

theorem slot_inj {n symbols start stop nt start' stop' nt' : Nat} (h : IsSpan n start stop)
    (h' : IsSpan n start' stop') (hnt : nt < symbols) (hnt' : nt' < symbols)
    (heq : slot n symbols start stop nt = slot n symbols start' stop' nt') :
    start = start' ∧ stop = stop' ∧ nt = nt' := by
  obtain ⟨hcell, hnt⟩ := mul_add_inj hnt hnt' heq
  obtain ⟨hstart, hstop⟩ := cell_inj h h' hcell
  exact ⟨hstart, hstop, hnt⟩

end Address
end BestParse
