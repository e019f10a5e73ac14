import Mathlib.Data.UInt
import BestParse.Proofs.Outcome
import BestParse.Proofs.Relimiting

/-!
# Widths of children

Under a limit on the width of children, the split points of a span are all positions inside it
that are as near to both ends as the width, which is at least one word
(`Limits.contains_splits_withMaxChildWidth`).

Positions and widths are numbers of sixty-four bits.  `Limits.checkedSplits` computes the split
points in these, sum by sum, and has no result where a sum overflows.  The difference on the way
stops at zero and the last step keeps the interval from turning over, so only the sums can fail, and
the longest of them decides (`Limits.checkedSplits_eq`).  The width is part of it.  So a width close
to the greatest number overflows, although it forbids nothing (`Limits.greatest_width_overflows`).

A width of no less than the sentence is no limit, to its split points or to any parse of it, as long
as the sums do not overflow (`Limits.width_splits`).
-/

namespace BestParse
namespace Limits

/-! ## Checked sums -/

/-- The sum of two numbers, unless it overflows. -/
def checkedSum (a b : UInt64) : Option UInt64 :=
  if a.toNat + b.toNat < UInt64.size then some (a + b) else .none

/-- The split points of a span under a limit on the width of children, or under none, unless a sum
on the way to them overflows. -/
def checkedSplits (maxWidth : Option UInt64) (start stop : UInt64) : Option Interval :=
  match maxWidth with
  | .none => do
    let first ← checkedSum start 1
    return ⟨first.toNat, stop.toNat⟩
  | some width => do
    let first ← checkedSum start 1
    let low := max first (stop - min stop width)
    let reach ← checkedSum (← checkedSum start width) 1
    let high := min stop reach
    return ⟨low.toNat, (max high low).toNat⟩

theorem bind_checkedSum {α : Type} (a b : UInt64) (f : UInt64 → Option α) :
    (checkedSum a b >>= f) =
      if a.toNat + b.toNat < UInt64.size then f (a + b) else .none := by
  unfold checkedSum
  split <;> rfl

theorem toNat_add_of_lt {a b : UInt64} (h : a.toNat + b.toNat < UInt64.size) :
    (a + b).toNat = a.toNat + b.toNat := by
  rw [UInt64.toNat_add]
  exact Nat.mod_eq_of_lt h

/-- A difference that stops at zero. -/
theorem toNat_sub_min (a b : UInt64) : (a - min a b).toNat = a.toNat - b.toNat := by
  have hle : min a b ≤ a := by
    rw [UInt64.le_iff_toNat_le, UInt64.toNat_min]
    exact Nat.min_le_left _ _
  rw [UInt64.toNat_sub_of_le _ _ hle, UInt64.toNat_min]
  omega

variable {limits : Limits}

/-- The split points are computed where the longest sum fits. -/
theorem checkedSplits_eq {maxWidth : Option UInt64}
    (hwidth : limits.maxChildWidth = maxWidth.map UInt64.toNat) (start stop : UInt64) :
    checkedSplits maxWidth start stop =
      if limits.splitsFit start.toNat stop.toNat = true then
        some (limits.splits start.toNat stop.toNat)
      else .none := by
  have hone : (1 : UInt64).toNat = 1 := rfl
  cases maxWidth with
  | none =>
      simp only [checkedSplits, splitsFit, splits, hwidth, Option.map_none, bind_checkedSum,
        decide_eq_true_eq, hone]
      split
      · next hfits =>
        rw [toNat_add_of_lt (b := 1) hfits]
        rfl
      · rfl
  | some width =>
      simp only [checkedSplits, splitsFit, splits, hwidth, Option.map_some, bind_checkedSum,
        decide_eq_true_eq, hone]
      by_cases hfits : start.toNat + width.toNat + 1 < UInt64.size
      · have hfirst : (start + 1).toNat = start.toNat + 1 :=
          toNat_add_of_lt (by rw [hone]; omega)
        have hsum : (start + width).toNat = start.toNat + width.toNat :=
          toNat_add_of_lt (by omega)
        have hreach : (start + width + 1).toNat = start.toNat + width.toNat + 1 := by
          rw [toNat_add_of_lt (by rw [hsum, hone]; exact hfits), hsum, hone]
        rw [if_pos (by omega), if_pos (by omega), if_pos (by omega), if_pos hfits]
        simp only [UInt64.toNat_max, UInt64.toNat_min, toNat_sub_min, hfirst, hreach]
        rfl
      · rw [if_neg hfits]
        split
        · split
          · next hsum => rw [toNat_add_of_lt hsum, if_neg hfits]
          · rfl
        · rfl

/-! ## What widths allow -/

theorem splitsFit_withMaxChildWidth {width start stop : Nat} :
    (limits.withMaxChildWidth width).splitsFit start stop = true ↔
      start + max width 1 + 1 < UInt64.size := by
  simp only [splitsFit, withMaxChildWidth, decide_eq_true_eq]

/-- The width that was asked for is at least one word. -/
theorem contains_splits_withMaxChildWidth {width start mid stop : Nat} :
    ((limits.withMaxChildWidth width).splits start stop).contains mid = true ↔
      start < mid ∧ mid < stop ∧ mid - start ≤ max width 1 ∧ stop - mid ≤ max width 1 := by
  rw [contains_splits]
  simp only [withMaxChildWidth, Option.some.injEq, forall_eq']

/-- A width that a span does not exceed is no limit to it. -/
theorem splits_withMaxChildWidth_of_le {width start stop : Nat} (hspan : start < stop)
    (hwide : stop - start ≤ width) :
    (limits.withMaxChildWidth width).splits start stop = Limits.none.splits start stop := by
  simp only [splits, withMaxChildWidth, Limits.none, Interval.mk.injEq]
  omega

/-! ## Parses under a width -/

/-- Over some open span of two words or more, the start, the width and one overflow together. -/
def Overflows (limits : Limits) (width size : Nat) : Prop :=
  ∃ start stop, start + 2 ≤ stop ∧ stop ≤ size ∧ limits.isOpen start stop = true ∧
    UInt64.size ≤ start + max width 1 + 1

theorem overflows_iff {width size : Nat} :
    limits.Overflows width size ↔
      ∃ start stop, start + 2 ≤ stop ∧ stop ≤ size ∧
        (limits.withMaxChildWidth width).isOpen start stop = true ∧
        (limits.withMaxChildWidth width).splitsFit start stop = false := by
  simp only [← Bool.not_eq_true, splitsFit_withMaxChildWidth, Nat.not_lt]
  rfl

/-- A width of no less than a sentence says the same about its binary edges as none. -/
theorem limitsAlike_of_le {t : Task} {width : Nat}
    (hlimits : t.limits = limits.withMaxChildWidth width) (hle : t.sentence.size ≤ width)
    (hfits : t.sentence.size + width ≤ UInt64.size) :
    t.LimitsAlike limits.closed .none where
  isOpen_eq _ _ := by
    rw [hlimits]
    rfl
  splits_eq {start stop} hwide hstop := by
    rw [hlimits, splits_withMaxChildWidth_of_le (by omega) (by omega)]
    rfl
  splitsFit_eq {start stop} hwide hstop := by
    have hlongest : start + max width 1 + 1 < UInt64.size := by omega
    have hfirst : start + 1 < UInt64.size := by omega
    rw [hlimits, splitsFit_withMaxChildWidth.2 hlongest]
    exact decide_eq_true hfirst

/-- Whatever the width, the split points of a span are computed unless its start, the width and one
overflow together.  They are all positions inside the span that are as near to both ends as the
width, which is at least one word.  A width of no less than the sentence is no limit: the split
points are those computed under none, and while the sums fit every parse is the same.  Where the
sums overflow over an open span a bottom-up search faults, and no parser faults otherwise, unless
the figure of merit does not cover an edge. -/
theorem width_splits (limits : Limits) (width : UInt64) :
    (∀ start stop : UInt64, checkedSplits (some (max width 1)) start stop =
      if start.toNat + max width.toNat 1 + 1 < UInt64.size then
        some ((limits.withMaxChildWidth width.toNat).splits start.toNat stop.toNat)
      else .none) ∧
    (∀ start mid stop,
      ((limits.withMaxChildWidth width.toNat).splits start stop).contains mid = true ↔
        start < mid ∧ mid < stop ∧
          mid - start ≤ max width.toNat 1 ∧ stop - mid ≤ max width.toNat 1) ∧
    (∀ (n : Nat) (start stop : UInt64), IsSpan n start.toNat stop.toNat → n ≤ width.toNat →
      checkedSplits .none start stop =
        some ((limits.withMaxChildWidth width.toNat).splits start.toNat stop.toNat)) ∧
    ∀ (d : Draft) (t : Task), d.build = .ok t.grammar →
      t.limits = limits.withMaxChildWidth width.toNat →
      (t.sentence.size ≤ width.toNat → t.sentence.size + width.toNat ≤ UInt64.size →
        ∀ p : Parser, p.parse { t with limits := { limits with maxChildWidth := .none } } =
          p.parse t) ∧
      (∀ b : BottomUp,
        (b.parse t).1.faulty = true ↔ limits.Overflows width.toNat t.sentence.size) ∧
      ∀ p : Parser, (p.parse t).1.faulty = true →
        limits.Overflows width.toNat t.sentence.size ∨ ∃ e, t.merit.covers e = false := by
  have hmax : (limits.withMaxChildWidth width.toNat).maxChildWidth =
      (some (max width 1)).map UInt64.toNat := by
    rw [Option.map_some, UInt64.toNat_max]
    rfl
  refine ⟨fun start stop => ?_, fun start mid stop => contains_splits_withMaxChildWidth,
    fun n start stop hspan hle => ?_, fun d t hbuild hlimits => ?_⟩
  · rw [checkedSplits_eq hmax]
    simp only [splitsFit_withMaxChildWidth]
  · obtain ⟨hlt, hstop⟩ := hspan
    have hnone : Limits.none.maxChildWidth = Option.none.map UInt64.toNat := rfl
    have hfits : Limits.none.splitsFit start.toNat stop.toNat = true :=
      decide_eq_true (Nat.lt_of_le_of_lt hlt (UInt64.toNat_lt_size stop))
    rw [checkedSplits_eq hnone, if_pos hfits, splits_withMaxChildWidth_of_le hlt (by omega)]
  · have hg := wellFormed_of_build hbuild
    refine ⟨fun hle hfits p => ?_, fun b => ?_, fun p hfaulty => ?_⟩
    · rw [← p.parse_relimited hg (limitsAlike_of_le hlimits hle hfits)]
      unfold Task.relimited
      rw [hlimits]
      rfl
    · rw [b.faulty_parse_iff, hlimits]
      exact overflows_iff.symm
    · have hfaults := Parser.faults_of_faulty hg hfaulty
      rw [BestFirst.Faults, hlimits] at hfaults
      exact hfaults.imp_left overflows_iff.2

/-- The greatest width whose sums fit over two words.  They overflow over a span that starts one
word later. -/
theorem width_splits_circular :
    checkedSplits (some (max 18446744073709551614 1)) 0 2 = some ⟨1, 2⟩ ∧
    checkedSplits (some (max 18446744073709551614 1)) 1 3 = .none ∧
    checkedSplits .none 0 2 = some ⟨1, 2⟩ ∧
    ¬ Limits.none.Overflows 18446744073709551614 circularTask.sentence.size ∧
    (Parser.bestFirst (.new .ghost .heuristic .memo)).parse { circularTask with
        limits := Limits.none.withMaxChildWidth 18446744073709551614 } =
      (Parser.bestFirst (.new .ghost .heuristic .memo)).parse circularTask := by
  obtain ⟨hchecked, -, hnone, htasks⟩ := width_splits Limits.none 18446744073709551614
  obtain ⟨hparses, hfaulty, -⟩ := htasks circularDraft { circularTask with
    limits := Limits.none.withMaxChildWidth 18446744073709551614 } circularDraft_builds rfl
  refine ⟨hchecked 0 2, hchecked 1 3, hnone 2 0 2 (by decide) (by decide), ?_, ?_⟩
  · have hsound : ((BottomUp.mk .pairs 2 {}).parse { circularTask with
        limits := Limits.none.withMaxChildWidth 18446744073709551614 }).1.faulty = false := by
      decide +kernel
    rw [← Bool.not_eq_true, hfaulty] at hsound
    exact hsound
  · exact (hparses (by decide +kernel) (by decide +kernel) _).symm

/-- The greatest width forbids nothing over two words, and its sum with one overflows.  Every search
that asks for the split point faults. -/
theorem greatest_width_overflows :
    checkedSplits (some (max 18446744073709551615 1)) 0 2 = .none ∧
    checkedSplits .none 0 2 = some ⟨1, 2⟩ ∧
    ∀ p ∈ [Parser.bottomUp { discovery := .productions },
        .bestFirst (.new .scan .inside .stable), .spanFirst {}],
      (p.parse { circularTask with
        limits := Limits.none.withMaxChildWidth 18446744073709551615 }).1.faulty = true := by
  decide +kernel

end Limits
end BestParse
