import BestParse.Proofs.BottomUp.Commits

/-!
# The schedule of the cells

Bottom-up search finishes its cells one after the other: the words, then the wider spans in the
order of their width.  So what is finished before a span is all that is narrower and what of the
same width starts earlier (`mem_take_schedule`), and both children of a binary edge over the span
lie in finished cells.

A search is looked at between any two of its commits.  `State.after` is the search when some cells
are finished, and `State.chartAt` the chart when besides some of the edges of the next cell are
committed.  Finished cells no longer change (`cell_chartAt`), since the next cell commits to itself
alone.
-/

namespace BestParse

/-- What stands before an entry of a sorted list is what is less. -/
theorem mem_take_iff_of_pairwise {α : Type} {R : α → α → Prop} {l : List α} (hl : l.Pairwise R)
    (hasymm : ∀ x y, R x y → ¬ R y x) {k : Nat} {y : α} (hk : l[k]? = some y) {x : α} :
    x ∈ l.take k ↔ x ∈ l ∧ R x y := by
  obtain ⟨hlt, rfl⟩ := List.getElem?_eq_some_iff.1 hk
  have hsplit : l = l.take k ++ l[k] :: l.drop (k + 1) := by
    rw [← List.drop_eq_getElem_cons, List.take_append_drop]
  rw [hsplit, List.pairwise_append, List.pairwise_cons] at hl
  obtain ⟨-, ⟨hafter, -⟩, hbefore⟩ := hl
  constructor
  · intro hx
    exact ⟨List.mem_of_mem_take hx, hbefore x hx _ List.mem_cons_self⟩
  · rintro ⟨hx, hless⟩
    rw [hsplit, List.mem_append, List.mem_cons] at hx
    rcases hx with hx | rfl | hx
    · exact hx
    · exact absurd hless (hasymm _ _ hless)
    · exact absurd hless (hasymm _ _ (hafter x hx))

namespace BottomUp

open Chart

/-! ## Order -/

/-- The span is narrower, or as wide and starts earlier. -/
def Earlier (x y : Nat × Nat) : Prop :=
  x.2 - x.1 < y.2 - y.1 ∨ x.2 - x.1 = y.2 - y.1 ∧ x.1 < y.1

theorem Earlier.asymm {x y : Nat × Nat} (h : Earlier x y) : ¬ Earlier y x := by
  simp only [Earlier] at h ⊢
  omega

/-- The spans in the order in which their cells are finished. -/
def schedule (n : Nat) : List (Nat × Nat) :=
  ((List.range n).map fun i => (i, i + 1)) ++ widerSpans n

theorem mem_schedule {n start stop : Nat} : (start, stop) ∈ schedule n ↔ IsSpan n start stop := by
  simp only [schedule, List.mem_append, List.mem_map, List.mem_range, mem_widerSpans,
    Prod.mk.injEq, IsSpan]
  constructor
  · rintro (⟨i, hi, rfl, rfl⟩ | ⟨hwide, hle⟩)
    · exact ⟨Nat.lt_succ_self i, hi⟩
    · exact ⟨by omega, hle⟩
  · rintro ⟨hlt, hle⟩
    rcases Nat.eq_or_lt_of_le (Nat.succ_le_of_lt hlt) with heq | hwide
    · exact Or.inl ⟨start, Nat.lt_of_lt_of_le hlt hle, rfl, heq⟩
    · exact Or.inr ⟨hwide, hle⟩

theorem pairwise_widerSpans (n : Nat) : (widerSpans n).Pairwise Earlier := by
  rw [widerSpans, List.pairwise_flatMap]
  constructor
  · intro width _
    rw [List.pairwise_map]
    refine List.Pairwise.imp ?_ List.pairwise_lt_range
    intro i j hij
    exact Or.inr ⟨by omega, hij⟩
  · refine List.Pairwise.imp ?_ List.pairwise_lt_range'
    intro width width' hlt x hx y hy
    obtain ⟨i, -, rfl⟩ := List.mem_map.1 hx
    obtain ⟨j, -, rfl⟩ := List.mem_map.1 hy
    exact Or.inl (show i + width - i < j + width' - j by omega)

theorem pairwise_schedule (n : Nat) : (schedule n).Pairwise Earlier := by
  refine List.pairwise_append.2 ⟨?_, pairwise_widerSpans n, ?_⟩
  · rw [List.pairwise_map]
    refine List.Pairwise.imp ?_ List.pairwise_lt_range
    intro i j hij
    exact Or.inr ⟨by omega, hij⟩
  · rintro x hx ⟨start, stop⟩ hwide
    obtain ⟨i, -, rfl⟩ := List.mem_map.1 hx
    have hwide := (mem_widerSpans.1 hwide).1
    exact Or.inl (show i + 1 - i < stop - start by omega)

/-- Before a span, all narrower spans are finished and those as wide that start earlier. -/
theorem mem_take_schedule {n k : Nat} {span : Nat × Nat} (hk : (schedule n)[k]? = some span)
    {start stop : Nat} :
    (start, stop) ∈ (schedule n).take k ↔ IsSpan n start stop ∧ Earlier (start, stop) span := by
  rw [mem_take_iff_of_pairwise (pairwise_schedule n) (fun _ _ h => h.asymm) hk, mem_schedule]

/-! ## The search, cell by cell -/

namespace State

/-- Fill and finish the cell of a span. -/
def fillCell (t : Task) (discovery : Discovery) (s : State) (span : Nat × Nat) : State :=
  if span.2 = span.1 + 1 then s.fillWord t discovery span.1
  else s.fillSpan t discovery span.1 span.2

/-- The edges that the cell of a span commits. -/
def cellCommits (t : Task) (discovery : Discovery) (s : State) (span : Nat × Nat) : List Edge :=
  if span.2 = span.1 + 1 then s.wordCommits t span.1 else s.spanCommits t discovery span

/-- The search when so many cells are finished. -/
def after (t : Task) (discovery : Discovery) (chain k : Nat) : State :=
  ((schedule t.sentence.size).take k).foldl (fillCell t discovery) (start t chain)

/-- The edges that the next cell commits, when so many cells are finished. -/
def nextCommits (t : Task) (discovery : Discovery) (chain k : Nat) : List Edge :=
  ((schedule t.sentence.size)[k]?.map (cellCommits t discovery (after t discovery chain k))).getD []

/-- The chart when so many cells are finished and so many edges of the next are committed. -/
def chartAt (t : Task) (discovery : Discovery) (chain k j : Nat) : Chart :=
  (after t discovery chain k).progress.chart.replay t.grammar
    ((nextCommits t discovery chain k).take j)

end State

variable {t : Task} {discovery : Discovery} {chain k : Nat} {span : Nat × Nat}

/-- All cells are filled in the order of the schedule. -/
theorem run_eq_after (t : Task) (discovery : Discovery) (chain : Nat) :
    (State.start t chain).run t discovery =
      State.after t discovery chain (schedule t.sentence.size).length := by
  rw [State.after, List.take_length, schedule, List.foldl_append, List.foldl_map]
  have hwords : ∀ (s : State) (i : Nat), s.fillCell t discovery (i, i + 1) =
      s.fillWord t discovery i := fun s i => if_pos rfl
  simp only [hwords]
  refine List.foldl_ext _ _ _ ?_
  rintro s ⟨start, stop⟩ hwide
  have hwide := (mem_widerSpans.1 hwide).1
  exact (if_neg (show stop ≠ start + 1 by omega)).symm

theorem after_succ (hk : (schedule t.sentence.size)[k]? = some span) :
    State.after t discovery chain (k + 1) =
      (State.after t discovery chain k).fillCell t discovery span := by
  simp only [State.after, List.take_add_one, hk, Option.toList_some, List.foldl_append]
  rfl

/-- When no cell is left, the search stays as it is. -/
theorem after_succ_of_none (hk : (schedule t.sentence.size)[k]? = none) :
    State.after t discovery chain (k + 1) = State.after t discovery chain k ∧
      State.nextCommits t discovery chain k = [] := by
  constructor
  · rw [State.after, List.take_add_one, hk, Option.toList_none, List.append_nil]
    rfl
  · rw [State.nextCommits, hk]
    rfl

theorem nextCommits_eq (hk : (schedule t.sentence.size)[k]? = some span) :
    State.nextCommits t discovery chain k =
      (State.after t discovery chain k).cellCommits t discovery span := by
  rw [State.nextCommits, hk]
  rfl

theorem isSpan_of_schedule (hk : (schedule t.sentence.size)[k]? = some span) :
    IsSpan t.sentence.size span.1 span.2 :=
  mem_schedule.1 (List.mem_of_getElem? hk)

section

variable (hg : t.grammar.WellFormed)

include hg

theorem leads_fillCell (discovery : Discovery) {s : State}
    (h : Improving t chain s.progress.chart [])
    (hspan : IsSpan t.sentence.size span.1 span.2) :
    Leads t chain s.progress.chart s.progress.work.committed (s.cellCommits t discovery span)
      (s.fillCell t discovery span).progress.chart
      (s.fillCell t discovery span).progress.work.committed := by
  simp only [State.fillCell, State.cellCommits]
  split
  · exact leads_fillWord hg discovery h (Nat.lt_of_lt_of_le hspan.1 hspan.2)
  · exact leads_fillSpan hg discovery h hspan

theorem aims_cellCommits (discovery : Discovery) {s : State}
    (h : Improving t chain s.progress.chart [])
    (hspan : IsSpan t.sentence.size span.1 span.2) :
    s.progress.chart.Aims (OfSpan span.1 span.2) (s.cellCommits t discovery span) := by
  simp only [State.cellCommits]
  split
  · next hword =>
    rw [hword]
    exact aims_wordCommits hg h (Nat.lt_of_lt_of_le hspan.1 hspan.2)
  · exact aims_spanCommits hg h hspan discovery

theorem improving_after (discovery : Discovery) (chain : Nat) : ∀ k : Nat,
    Improving t chain (State.after t discovery chain k).progress.chart []
  | 0 => Course.start
  | k + 1 => by
      have h := improving_after discovery chain k
      cases hk : (schedule t.sentence.size)[k]? with
      | none =>
          rw [(after_succ_of_none hk).1]
          exact h
      | some span =>
          rw [after_succ hk]
          exact (leads_fillCell hg discovery h (isSpan_of_schedule hk)).improving

/-- The next chart is the one in which the edges of the next cell are committed. -/
theorem leads_after (hk : (schedule t.sentence.size)[k]? = some span) :
    Leads t chain (State.after t discovery chain k).progress.chart
      (State.after t discovery chain k).progress.work.committed
      (State.nextCommits t discovery chain k)
      (State.after t discovery chain (k + 1)).progress.chart
      (State.after t discovery chain (k + 1)).progress.work.committed := by
  rw [after_succ hk, nextCommits_eq hk]
  exact leads_fillCell hg discovery (improving_after hg discovery chain k) (isSpan_of_schedule hk)

theorem improving_chartAt (discovery : Discovery) (chain k j : Nat) :
    ∃ hand, Improving t chain (State.chartAt t discovery chain k j) hand := by
  cases hk : (schedule t.sentence.size)[k]? with
  | none =>
      rw [State.chartAt, (after_succ_of_none hk).2, List.take_nil]
      exact ⟨[], improving_after hg discovery chain k⟩
  | some span => exact (leads_after hg hk).along j

/-- The edges of the next cell aim at no finished cell. -/
theorem aims_nextCommits (discovery : Discovery) (chain k : Nat) :
    (State.after t discovery chain k).progress.chart.Aims
      (fun τ => (τ.slot.start, τ.slot.stop) ∉ (schedule t.sentence.size).take k)
      (State.nextCommits t discovery chain k) := by
  cases hk : (schedule t.sentence.size)[k]? with
  | none =>
      rw [(after_succ_of_none hk).2]
      exact List.forall_mem_nil _
  | some span =>
      rw [nextCommits_eq hk]
      refine (aims_cellCommits hg discovery (improving_after hg discovery chain k)
        (isSpan_of_schedule hk)).mono ?_
      rintro τ ⟨hstart, hstop⟩ hfinished
      rw [hstart, hstop, mem_take_schedule hk] at hfinished
      exact hfinished.2.asymm hfinished.2

/-- Finished cells list what they listed when they were finished. -/
theorem cell_chartAt (discovery : Discovery) (chain j : Nat) {start stop : Nat}
    (hfinished : (start, stop) ∈ (schedule t.sentence.size).take k) :
    (State.chartAt t discovery chain k j).cell start stop =
      (State.after t discovery chain k).progress.chart.cell start stop := by
  have himproved := (improving_after hg discovery chain k).improved hg
  have haims : (State.after t discovery chain k).progress.chart.Aims
      (fun τ => (τ.slot.start, τ.slot.stop) ∉ (schedule t.sentence.size).take k)
      ((State.nextCommits t discovery chain k).take j) :=
    (aims_nextCommits hg discovery chain k).subset fun e he => List.mem_of_mem_take he
  exact haims.cell_replay himproved.shaped.sized
    (himproved.isSpan_size (mem_schedule.1 (List.mem_of_mem_take hfinished)))
    fun _ _ hopen => hopen hfinished

/-- When all edges of a cell are committed, the next chart is there. -/
theorem chart_after_succ (discovery : Discovery) (chain k : Nat) :
    (State.after t discovery chain (k + 1)).progress.chart =
      State.chartAt t discovery chain k (State.nextCommits t discovery chain k).length := by
  rw [State.chartAt, List.take_length]
  cases hk : (schedule t.sentence.size)[k]? with
  | none =>
      rw [(after_succ_of_none hk).1, (after_succ_of_none hk).2]
      rfl
  | some span => exact (leads_after hg hk).chart_eq

end

end BottomUp
end BestParse
