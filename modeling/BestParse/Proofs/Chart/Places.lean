import Mathlib.Data.Set.Function
import Mathlib.Order.Interval.Set.Defs
import Mathlib.Tactic.Ring
import BestParse.Proofs.Chart.Records

/-!
# Places fill their arrays

Different spans, slots and layers have different places, all of them in bounds.  Here it is shown
that no place is left over.  A place among the cells lies in the row of some start
(`exists_cell_eq`), and a place among the slots or layers is a cell's or a slot's by division with
remainder (`exists_mul_add_eq`).  So addresses and places are in bijection (`bijOn_cell`,
`bijOn_slot`, `bijOn_layer`), and the spans in the order in which a chart lists them have the
places from zero on (`map_cellIndex_spans`).

Addresses are computed in machine words.  What is computed on the way to the place of a cell is no
more than what the number of cells is computed from, so it stays inside a word where that does
(`cell_fits`).
-/

namespace BestParse
namespace Address

/-! ## Rows -/

theorem rowStart_zero (n : Nat) : rowStart n 0 = 0 := by
  rw [rowStart, Nat.zero_mul, Nat.zero_div]

/-- The cells of a start follow each other in the order of their stops. -/
theorem cell_add (n start k : Nat) :
    cell n start (start + 1 + k) = cell n start (start + 1) + k := by
  rw [cell_eq, cell_eq]
  omega

/-- A place before the row of a start is that of a span with an earlier start. -/
theorem exists_cell_eq_of_lt_rowStart {n i : Nat} : ∀ {start : Nat}, start ≤ n →
    i < rowStart n start → ∃ first last, IsSpan n first last ∧ cell n first last = i
  | 0, _, hi => by
      rw [rowStart_zero] at hi
      exact absurd hi (Nat.not_lt_zero i)
  | start + 1, hstart, hi => by
      rcases Nat.lt_or_ge i (rowStart n start) with hbefore | hrow
      · exact exists_cell_eq_of_lt_rowStart (Nat.le_of_succ_le hstart) hbefore
      · rw [rowStart_succ hstart] at hi
        refine ⟨start, start + 1 + (i - rowStart n start), ⟨by omega, by omega⟩, ?_⟩
        rw [cell_eq]
        omega

theorem exists_cell_eq {n i : Nat} (hi : i < cells n) :
    ∃ start stop, IsSpan n start stop ∧ cell n start stop = i := by
  rw [← rowStart_self] at hi
  exact exists_cell_eq_of_lt_rowStart (Nat.le_refl n) hi

theorem exists_mul_add_eq {a k i : Nat} (hi : i < a * k) :
    ∃ x y, x < a ∧ y < k ∧ x * k + y = i := by
  have hk : 0 < k := Nat.pos_of_mul_pos_left (Nat.lt_of_le_of_lt (Nat.zero_le i) hi)
  exact ⟨i / k, i % k, Nat.div_lt_of_lt_mul (Nat.mul_comm a k ▸ hi), Nat.mod_lt i hk,
    Nat.div_add_mod' i k⟩

/-! ## Bijections -/

/-- Spans and places of cells. -/
theorem bijOn_cell (n : Nat) :
    Set.BijOn (fun x : Nat × Nat => cell n x.1 x.2) {x | IsSpan n x.1 x.2} (Set.Iio (cells n)) := by
  refine ⟨fun x hx => cell_lt hx, fun x hx x' hx' heq => ?_, fun i hi => ?_⟩
  · obtain ⟨hstart, hstop⟩ := cell_inj hx hx' heq
    exact Prod.ext hstart hstop
  · obtain ⟨start, stop, hspan, rfl⟩ := exists_cell_eq hi
    exact ⟨(start, stop), hspan, rfl⟩

/-- Slots and their places. -/
theorem bijOn_slot (n symbols : Nat) :
    Set.BijOn (fun x : Slot => slot n symbols x.start x.stop x.symbol)
      {x | IsSpan n x.start x.stop ∧ x.symbol < symbols} (Set.Iio (cells n * symbols)) := by
  refine ⟨fun x hx => slot_lt hx.1 hx.2, fun x hx x' hx' heq => ?_, fun i hi => ?_⟩
  · obtain ⟨start, stop, nt⟩ := x
    obtain ⟨start', stop', nt'⟩ := x'
    obtain ⟨hstart, hstop, hnt⟩ := slot_inj hx.1 hx'.1 hx.2 hx'.2 heq
    simp only [Slot.mk.injEq]
    exact ⟨hstart, hstop, hnt⟩
  · obtain ⟨j, nt, hj, hnt, rfl⟩ := exists_mul_add_eq hi
    obtain ⟨start, stop, hspan, rfl⟩ := exists_cell_eq hj
    exact ⟨⟨start, stop, nt⟩, ⟨hspan, hnt⟩, rfl⟩

/-- Targets and places of layers. -/
theorem bijOn_layer (n symbols layers : Nat) :
    Set.BijOn
      (fun τ : Target =>
        layer layers (slot n symbols τ.slot.start τ.slot.stop τ.slot.symbol) τ.layer)
      {τ | (IsSpan n τ.slot.start τ.slot.stop ∧ τ.slot.symbol < symbols) ∧ τ.layer < layers}
      (Set.Iio (cells n * symbols * layers)) := by
  have hslots := bijOn_slot n symbols
  refine ⟨fun τ hτ => layer_lt (hslots.mapsTo hτ.1) hτ.2, fun τ hτ τ' hτ' heq => ?_, fun i hi => ?_⟩
  · obtain ⟨x, d⟩ := τ
    obtain ⟨x', d'⟩ := τ'
    obtain ⟨hplace, hlayer⟩ := mul_add_inj hτ.2 hτ'.2 heq
    simp only [Target.mk.injEq]
    exact ⟨hslots.injOn hτ.1 hτ'.1 hplace, hlayer⟩
  · obtain ⟨j, d, hj, hd, rfl⟩ := exists_mul_add_eq hi
    obtain ⟨x, hx, rfl⟩ := hslots.surjOn hj
    exact ⟨⟨x, d⟩, ⟨hx, hd⟩, rfl⟩

/-! ## Machine words -/

/-- What is multiplied and divided on the way to a cell is no more than what the number of cells
is computed from. -/
theorem rowProduct_le {n start : Nat} (h : start ≤ n) :
    start * (2 * n - start + 1) ≤ n * (n + 1) := by
  obtain ⟨k, rfl⟩ := Nat.exists_eq_add_of_le h
  have hrest : (start + k) * (start + k + 1) = start * (start + 2 * k + 1) + k * (k + 1) := by ring
  rw [show 2 * (start + k) - start + 1 = start + 2 * k + 1 by omega, hrest]
  exact Nat.le_add_right _ _

/-- The place of a cell is computed inside sixty-four bits, if the number of cells is. -/
theorem cell_fits {n start stop : Nat} (h : IsSpan n start stop)
    (hfits : n * (n + 1) < UInt64.size) :
    2 * n - start + 1 < UInt64.size ∧ start * (2 * n - start + 1) < UInt64.size ∧
      cell n start stop < UInt64.size := by
  have hproduct := rowProduct_le (Nat.le_of_lt (Nat.lt_of_lt_of_le h.1 h.2))
  have hcell := cell_lt h
  have hcells : cells n ≤ n * (n + 1) := Nat.div_le_self _ 2
  obtain ⟨hlt, hle⟩ := h
  refine ⟨?_, by omega, by omega⟩
  -- A sentence of more words than thirty-two bits can count has too many cells.
  by_contra hlong
  have hn : 2 ^ 32 ≤ n := by
    rw [UInt64.size] at hlong
    omega
  have hmany : 2 ^ 32 * 2 ^ 32 ≤ n * (n + 1) := Nat.mul_le_mul hn (Nat.le_succ_of_le hn)
  rw [UInt64.size] at hfits
  omega

end Address

namespace Chart

/-! ## Charts -/

/-- The rows of the first starts fill the places before the next row. -/
theorem flatMap_rows (n : Nat) : ∀ {starts : Nat}, starts ≤ n →
    ((List.range starts).flatMap fun start =>
        List.range' (Address.rowStart n start) (n - start)) =
      List.range (Address.rowStart n starts)
  | 0, _ => by rw [Address.rowStart_zero]; rfl
  | starts + 1, hstarts => by
      have hjoin := List.range'_append_1 (s := 0) (m := Address.rowStart n starts) (n := n - starts)
      rw [Nat.zero_add] at hjoin
      rw [List.range_succ, List.flatMap_append, flatMap_rows n (Nat.le_of_succ_le hstarts),
        List.flatMap_cons, List.flatMap_nil, List.append_nil, Address.rowStart_succ hstarts,
        List.range_eq_range', List.range_eq_range', hjoin]

/-- The spans of a chart, in order, have the places from zero on. -/
theorem map_cellIndex_spans (c : Chart) :
    (c.spans.map fun x => c.cellIndex x.1 x.2) = List.range (Address.cells c.size) := by
  have hrow : ∀ start, ((List.range' (start + 1) (c.size - start)).map fun stop =>
      c.cellIndex start stop) = List.range' (Address.rowStart c.size start) (c.size - start) := by
    intro start
    rw [List.range'_eq_map_range, List.range'_eq_map_range, List.map_map]
    refine List.map_congr_left fun k _ => ?_
    change Address.cell c.size start (start + 1 + k) = _
    rw [Address.cell_add, Address.cell_eq]
    omega
  unfold spans
  rw [List.map_flatMap, ← Address.rowStart_self, ← flatMap_rows c.size (Nat.le_refl _)]
  refine List.flatMap_congr fun start _ => ?_
  rw [List.map_map]
  exact hrow start

/-- Spans, and targets, are in bijection with their places, whatever the numbers of words, of
nonterminals and of layers.  The cells of one start follow each other in the order of their stops.
A chart has room for all places, whatever was committed to it, and lists its spans in their
order. -/
theorem addresses_fill (n symbols layers : Nat) :
    Set.BijOn (fun x : Nat × Nat => Address.cell n x.1 x.2) {x | IsSpan n x.1 x.2}
      (Set.Iio (n * (n + 1) / 2)) ∧
    (∀ start k, Address.cell n start (start + 1 + k) = Address.cell n start (start + 1) + k) ∧
    Set.BijOn
      (fun τ : Target => Address.layer layers
        (Address.slot n symbols τ.slot.start τ.slot.stop τ.slot.symbol) τ.layer)
      {τ | (IsSpan n τ.slot.start τ.slot.stop ∧ τ.slot.symbol < symbols) ∧ τ.layer < layers}
      (Set.Iio (n * (n + 1) / 2 * symbols * layers)) ∧
    (∀ start stop, IsSpan n start stop → n * (n + 1) < UInt64.size →
      2 * n - start + 1 < UInt64.size ∧ start * (2 * n - start + 1) < UInt64.size ∧
        Address.cell n start stop < UInt64.size) ∧
    ∀ (g : Grammar) (chain : Nat) (c : Chart), Committed g n chain (fun _ _ => True) c →
      (c.spans.map fun x => c.cellIndex x.1 x.2) = List.range c.cells.size ∧
      ∀ start stop nt depth, IsSpan n start stop → nt < g.numNonterminals → depth ≤ chain →
        c.cellIndex start stop < c.cells.size ∧ c.slotIndex start stop nt < c.best.size ∧
          c.layerIndex start stop nt depth < c.layers.size := by
  refine ⟨Address.bijOn_cell n, Address.cell_add n, Address.bijOn_layer n symbols layers,
    fun start stop hspan hfits => Address.cell_fits hspan hfits, fun g chain c hc => ?_⟩
  have hsized := hc.shaped.sized
  refine ⟨by rw [map_cellIndex_spans, hsized.cells_size], ?_⟩
  intro start stop nt depth hspan hnt hd
  rw [← hc.size_eq] at hspan
  rw [← hc.symbols_eq] at hnt
  rw [← hc.maxChain_eq] at hd
  have hslot := Address.slot_lt hspan hnt
  rw [hsized.cells_size, hsized.best_size, hsized.layers_size]
  exact ⟨Address.cell_lt hspan, hslot, Address.layer_lt hslot (Nat.lt_succ_of_le hd)⟩

/-- When the first of two words is seeded, the three spans have the first three places, and the
last layer of the last slot has the last place. -/
theorem addresses_fill_circular :
    ∃ c, Committed circularGrammar 2 2 (fun _ _ => True) c ∧ c.populated 0 1 = [1] ∧
      (c.spans.map fun x => c.cellIndex x.1 x.2) = List.range 3 ∧
      c.layerIndex 1 2 1 2 = 17 ∧ 17 < c.layers.size := by
  have hc : Committed circularGrammar 2 2 (fun _ _ => True)
      ((empty circularGrammar 2 2).seed circularGrammar (some 0) 0).2 :=
    (Committed.start.seed (wellFormed_of_build circularDraft_builds) _ (by decide)).mono
      fun _ _ _ => trivial
  obtain ⟨-, -, -, -, hcharts⟩ := addresses_fill 2 circularGrammar.numNonterminals 3
  obtain ⟨hspans, hroom⟩ := hcharts circularGrammar 2 _ hc
  obtain ⟨-, -, hlayer⟩ := hroom 1 2 1 2 (by decide) (by decide +kernel) (Nat.le_refl 2)
  have hlast : ((empty circularGrammar 2 2).seed circularGrammar (some 0) 0).2.layerIndex 1 2 1 2 =
      17 := by decide +kernel
  rw [hc.shaped.sized.cells_size, hc.size_eq] at hspans
  rw [hlast] at hlayer
  exact ⟨_, hc, by decide +kernel, hspans, hlast, hlayer⟩

end Chart
end BestParse
