import Mathlib.Order.Bounds.Basic
import BestParse.Proofs.BottomUp.Filler
import BestParse.Proofs.BottomUp.Schedule

/-!
# What the tables of extents hold

`Extents.Knows` says that extents rule nothing out that is there.  Here the tables are read exactly
(`extents_exact`): between any two commits of a search, they hold the least and the greatest stops
and starts of the finished cells in which a nonterminal is populated, or the numbers they were
filled with when there is none.

Taking up a slot puts one number into the set behind an entry of each table (`Exact.extend`), so
the order in which a cell lists its nonterminals does not matter (`Exact.extendAll`).  Finished
cells do not change any more, and so the tables stay exact while the next cell is filled
(`exact_chartAt`).

Feasible split points lie strictly inside the span, whatever is finished
(`Exact.feasible_inside`).  That none is missing needs the schedule: both children of a split point
lie over narrower spans, which are finished when the span is filled (`settled_children`).
-/

namespace BestParse

/-! ## Entries of a table -/

/-- The least number of a set, or another if there is none. -/
def LeastOr (other : Int) (s : Set Nat) (v : Int) : Prop :=
  (∃ m : Nat, IsLeast s m ∧ v = m) ∨ s = ∅ ∧ v = other

/-- The greatest number of a set, or another if there is none. -/
def GreatestOr (other : Int) (s : Set Nat) (v : Int) : Prop :=
  (∃ m : Nat, IsGreatest s m ∧ v = m) ∨ s = ∅ ∧ v = other

section

variable {other v : Int} {s : Set Nat} {m : Nat}

theorem LeastOr.insert (h : LeastOr other s v) (hm : (m : Int) ≤ other) :
    LeastOr other (insert m s) (min v m) := by
  rcases h with ⟨k, hk, rfl⟩ | ⟨rfl, rfl⟩
  · exact Or.inl ⟨min m k, hk.insert m, by omega⟩
  · exact Or.inl ⟨m, by rw [insert_empty_eq]; exact isLeast_singleton, Int.min_eq_right hm⟩

theorem GreatestOr.insert (h : GreatestOr other s v) (hm : other ≤ (m : Int)) :
    GreatestOr other (insert m s) (max v m) := by
  rcases h with ⟨k, hk, rfl⟩ | ⟨rfl, rfl⟩
  · exact Or.inl ⟨max m k, hk.insert m, by omega⟩
  · exact Or.inl ⟨m, by rw [insert_empty_eq]; exact isGreatest_singleton, Int.max_eq_right hm⟩

theorem LeastOr.le (h : LeastOr other s v) (hm : m ∈ s) : v ≤ m := by
  rcases h with ⟨k, hk, rfl⟩ | ⟨rfl, -⟩
  · exact Int.ofNat_le.2 (hk.2 hm)
  · cases hm

theorem GreatestOr.le (h : GreatestOr other s v) (hm : m ∈ s) : (m : Int) ≤ v := by
  rcases h with ⟨k, hk, rfl⟩ | ⟨rfl, -⟩
  · exact Int.ofNat_le.2 (hk.2 hm)
  · cases hm

theorem LeastOr.lt (h : LeastOr other s v) (hs : ∀ k ∈ s, m < k) (hm : (m : Int) < other) :
    (m : Int) < v := by
  rcases h with ⟨k, hk, rfl⟩ | ⟨-, rfl⟩
  · exact Int.ofNat_lt.2 (hs k hk.1)
  · exact hm

theorem GreatestOr.lt (h : GreatestOr other s v) (hs : ∀ k ∈ s, k < m) (hm : other < (m : Int)) :
    v < m := by
  rcases h with ⟨k, hk, rfl⟩ | ⟨-, rfl⟩
  · exact Int.ofNat_lt.2 (hs k hk.1)
  · exact hm

end

namespace Extents

variable {symbols n : Nat} {x : Extents} {among : Slot → Prop} {nt : NonTerminal}

/-! ## Exact tables -/

/-- The entries of a nonterminal and a position, against some slots. -/
structure Measures (x : Extents) (n : Nat) (among : Slot → Prop) (nt : NonTerminal)
    (position : Nat) : Prop where
  nearStop : LeastOr (n + 1) {stop | among ⟨position, stop, nt⟩}
    (x.nearStop.getD (x.place nt position) 0)
  farStop : GreatestOr (-1) {stop | among ⟨position, stop, nt⟩}
    (x.farStop.getD (x.place nt position) 0)
  nearStart : GreatestOr (-1) {start | among ⟨start, position, nt⟩}
    (x.nearStart.getD (x.place nt position) 0)
  farStart : LeastOr (n + 1) {start | among ⟨start, position, nt⟩}
    (x.farStart.getD (x.place nt position) 0)

/-- The tables have room for every nonterminal and position, and measure the slots there. -/
structure Exact (symbols n : Nat) (among : Slot → Prop) (x : Extents) : Prop where
  sized : x.Sized symbols n
  measures : ∀ nt < symbols, ∀ position ≤ n, x.Measures n among nt position

theorem setOf_or_eq {p q : Nat → Prop} {c : Prop} [Decidable c] {m : Nat}
    (hq : ∀ i, q i ↔ c ∧ i = m) :
    {i | p i ∨ q i} = if c then insert m {i | p i} else {i | p i} := by
  ext i
  rw [Set.mem_ofPred_eq, hq i]
  split
  · next hc => simp [hc, or_comm]
  · next hc => simp [hc]

theorem getD_replicate_of_lt {α : Type} {n i : Nat} (hi : i < n) (a d : α) :
    (Array.replicate n a).getD i d = a := by
  simp [hi]

namespace Exact

theorem congr {among' : Slot → Prop} (h : x.Exact symbols n among)
    (hsame : ∀ s, s.symbol < symbols → (among s ↔ among' s)) : x.Exact symbols n among' where
  sized := h.sized
  measures nt hnt position hposition := by
    have hstops : {stop | among ⟨position, stop, nt⟩} = {stop | among' ⟨position, stop, nt⟩} :=
      Set.ext fun stop => hsame ⟨position, stop, nt⟩ hnt
    have hstarts : {start | among ⟨start, position, nt⟩} =
        {start | among' ⟨start, position, nt⟩} :=
      Set.ext fun start => hsame ⟨start, position, nt⟩ hnt
    obtain ⟨hnear, hfar, hnear', hfar'⟩ := h.measures nt hnt position hposition
    rw [hstops] at hnear hfar
    rw [hstarts] at hnear' hfar'
    exact ⟨hnear, hfar, hnear', hfar'⟩

theorem start (symbols n : Nat) : (start symbols n).Exact symbols n fun _ => False where
  sized := sized_start symbols n
  measures nt hnt position hposition := by
    have hplace := place_lt (sized_start symbols n) hnt hposition
    constructor
    · exact Or.inr ⟨rfl, getD_replicate_of_lt hplace _ _⟩
    · exact Or.inr ⟨rfl, getD_replicate_of_lt hplace _ _⟩
    · exact Or.inr ⟨rfl, getD_replicate_of_lt hplace _ _⟩
    · exact Or.inr ⟨rfl, getD_replicate_of_lt hplace _ _⟩

/-! ## Taking up slots -/

section

variable {first last : Nat} {taken : NonTerminal}

theorem place_eq_iff (h : x.Sized symbols n) {nt' : NonTerminal} {i j : Nat} (hi : i ≤ n)
    (hj : j ≤ n) : x.place nt i = x.place nt' j ↔ nt = nt' ∧ i = j := by
  simp only [place, h.stride_eq]
  constructor
  · exact Address.mul_add_inj (Nat.lt_succ_of_le hi) (Nat.lt_succ_of_le hj)
  · rintro ⟨rfl, rfl⟩
    rfl

/-- The stops from a position, when a slot is taken up. -/
theorem stops_insert (h : x.Sized symbols n) (hfirst : first ≤ n) {position : Nat}
    (hposition : position ≤ n) :
    {stop | among ⟨position, stop, nt⟩ ∨ (⟨position, stop, nt⟩ : Slot) = ⟨first, last, taken⟩} =
      if x.place taken first = x.place nt position then
        insert last {stop | among ⟨position, stop, nt⟩}
      else {stop | among ⟨position, stop, nt⟩} := by
  refine setOf_or_eq fun stop => ?_
  rw [place_eq_iff h hfirst hposition, Slot.mk.injEq]
  tauto

/-- The starts to a position, when a slot is taken up. -/
theorem starts_insert (h : x.Sized symbols n) (hlast : last ≤ n) {position : Nat}
    (hposition : position ≤ n) :
    {start | among ⟨start, position, nt⟩ ∨ (⟨start, position, nt⟩ : Slot) = ⟨first, last, taken⟩} =
      if x.place taken last = x.place nt position then
        insert first {start | among ⟨start, position, nt⟩}
      else {start | among ⟨start, position, nt⟩} := by
  refine setOf_or_eq fun start => ?_
  rw [place_eq_iff h hlast hposition, Slot.mk.injEq]
  tauto

/-- Taking up a slot measures it besides. -/
theorem extend (h : x.Exact symbols n among) (hfirst : first ≤ n) (hlast : last ≤ n)
    (htaken : taken < symbols) :
    (x.extend first last taken).Exact symbols n
      fun s => among s ∨ s = ⟨first, last, taken⟩ where
  sized := sized_extend h.sized first last taken
  measures nt hnt position hposition := by
    have hl := place_lt h.sized htaken hfirst
    have hr := place_lt h.sized htaken hlast
    have hbelow : ∀ {i : Nat}, i ≤ n → (i : Int) ≤ n + 1 := by omega
    have habove : ∀ i : Nat, (-1 : Int) ≤ i := by omega
    obtain ⟨hnear, hfar, hnear', hfar'⟩ := h.measures nt hnt position hposition
    constructor
    · rw [stops_insert h.sized hfirst hposition]
      show LeastOr _ _ ((x.nearStop.modify _ _).getD (x.place nt position) 0)
      rw [Chart.getD_modify (h.sized.nearStop_size ▸ hl)]
      split
      · exact hnear.insert (hbelow hlast)
      · exact hnear
    · rw [stops_insert h.sized hfirst hposition]
      show GreatestOr _ _ ((x.farStop.modify _ _).getD (x.place nt position) 0)
      rw [Chart.getD_modify (h.sized.farStop_size ▸ hl)]
      split
      · exact hfar.insert (habove last)
      · exact hfar
    · rw [starts_insert h.sized hlast hposition]
      show GreatestOr _ _ ((x.nearStart.modify _ _).getD (x.place nt position) 0)
      rw [Chart.getD_modify (h.sized.nearStart_size ▸ hr)]
      split
      · exact hnear'.insert (habove first)
      · exact hnear'
    · rw [starts_insert h.sized hlast hposition]
      show LeastOr _ _ ((x.farStart.modify _ _).getD (x.place nt position) 0)
      rw [Chart.getD_modify (h.sized.farStart_size ▸ hr)]
      split
      · exact hfar'.insert (hbelow hfirst)
      · exact hfar'

/-- Taking up the nonterminals of a span, in any order, measures them besides. -/
theorem extendAll (hfirst : first ≤ n) (hlast : last ≤ n) {nts : List NonTerminal}
    (hnts : ∀ nt ∈ nts, nt < symbols) (h : x.Exact symbols n among) :
    (nts.foldl (fun x nt => x.extend first last nt) x).Exact symbols n
      fun s => among s ∨ s.start = first ∧ s.stop = last ∧ s.symbol ∈ nts := by
  induction nts generalizing x among with
  | nil => exact h.congr fun s _ => by simp
  | cons nt nts ih =>
      obtain ⟨hnt, hrest⟩ := List.forall_mem_cons.1 hnts
      refine (ih hrest (h.extend hfirst hlast hnt)).congr fun s _ => ?_
      obtain ⟨start, stop, symbol⟩ := s
      simp only [Slot.mk.injEq, List.mem_cons]
      tauto

end

/-! ## Feasible split points -/

theorem knows (h : x.Exact symbols n among) {s : Slot} (hs : among s) (hsymbol : s.symbol < symbols)
    (hstart : s.start ≤ n) (hstop : s.stop ≤ n) : x.Knows s :=
  have hl := h.measures s.symbol hsymbol s.start hstart
  have hr := h.measures s.symbol hsymbol s.stop hstop
  { nearStop_le := hl.nearStop.le hs
    le_farStop := hl.farStop.le hs
    farStart_le := hr.farStart.le hs
    le_nearStart := hr.nearStart.le hs }

/-- Feasible split points lie strictly inside the span, whatever slots are measured. -/
theorem feasible_inside (h : x.Exact symbols n among) (hspans : ∀ s, among s → s.start < s.stop)
    {l r : NonTerminal} {first last : Nat} (hl : l < symbols) (hr : r < symbols)
    (hspan : IsSpan n first last) {low high : Nat}
    (hfeasible : x.feasible l r first last = some (low, high)) :
    first + 1 ≤ low ∧ low ≤ high ∧ high ≤ last - 1 := by
  obtain ⟨hlt, hle⟩ := hspan
  have hnear : (first : Int) < x.nearStop.getD (x.place l first) 0 :=
    (h.measures l hl first (by omega)).nearStop.lt (fun k hk => hspans _ hk) (by omega)
  have hnear' : x.nearStart.getD (x.place r last) 0 < last :=
    (h.measures r hr last hle).nearStart.lt (fun k hk => hspans _ hk) (by omega)
  simp only [feasible, Option.ite_none_left_eq_some, Option.some.injEq, Prod.mk.injEq] at hfeasible
  obtain ⟨hcross, rfl, rfl⟩ := hfeasible
  omega

/-- No split point between measured slots is ruled out. -/
theorem feasible_covers (h : x.Exact symbols n among) {l r : NonTerminal} {first mid last : Nat}
    (hl : l < symbols) (hr : r < symbols) (hmid : first < mid ∧ mid < last) (hlast : last ≤ n)
    (hleft : among ⟨first, mid, l⟩) (hright : among ⟨mid, last, r⟩) :
    ∃ low high, x.feasible l r first last = some (low, high) ∧ low ≤ mid ∧ mid ≤ high :=
  feasible_of_knows
    (h.knows hleft hl (show first ≤ n by omega) (show mid ≤ n by omega))
    (h.knows hright hr (show mid ≤ n by omega) hlast)

/-- How many productions were passed over does not matter. -/
theorem withSkipped (h : x.Exact symbols n among) (skipped : Nat) :
    Exact symbols n among { x with skipped := skipped } where
  sized :=
    { stride_eq := h.sized.stride_eq
      nearStop_size := h.sized.nearStop_size
      farStop_size := h.sized.farStop_size
      nearStart_size := h.sized.nearStart_size
      farStart_size := h.sized.farStart_size }
  measures nt hnt position hposition :=
    have hentries := h.measures nt hnt position hposition
    { nearStop := hentries.nearStop
      farStop := hentries.farStop
      nearStart := hentries.nearStart
      farStart := hentries.farStart }

end Exact

end Extents

namespace BottomUp

open Chart

variable {t : Task} {chain k : Nat} {span : Nat × Nat}

/-! ## The tables of a search -/

/-- A cell is taken up when it is filled. -/
theorem extents_fillCell (t : Task) (s : State) (span : Nat × Nat) :
    ∃ skipped, (s.fillCell t .extents span).extents =
      Extents.finish { s.extents with skipped := skipped }
        (s.fillCell t .extents span).progress.chart span.1 span.2 := by
  simp only [State.fillCell]
  split
  · next hword =>
    rw [hword]
    exact ⟨s.extents.skipped, rfl⟩
  · simp only [State.fillSpan]
    split
    · exact ⟨_, rfl⟩
    · exact ⟨s.extents.skipped, rfl⟩

/-- The slot is populated in a finished cell, when so many cells are finished and so many edges of
the next one are committed. -/
def Settled (t : Task) (chain k j : Nat) (x : Slot) : Prop :=
  (x.start, x.stop) ∈ (schedule t.sentence.size).take k ∧
    (State.chartAt t .extents chain k j).isPopulated x.start x.stop x.symbol = true

/-- When a span is filled, both children of a split point are settled. -/
theorem settled_children {j mid : Nat} (hk : (schedule t.sentence.size)[k]? = some span)
    (hmid : span.1 < mid ∧ mid < span.2) {l r : NonTerminal}
    (hleft : (State.chartAt t .extents chain k j).isPopulated span.1 mid l = true)
    (hright : (State.chartAt t .extents chain k j).isPopulated mid span.2 r = true) :
    Settled t chain k j ⟨span.1, mid, l⟩ ∧ Settled t chain k j ⟨mid, span.2, r⟩ := by
  have hle := (isSpan_of_schedule hk).2
  have hmidLe : mid ≤ t.sentence.size := Nat.le_trans (Nat.le_of_lt hmid.2) hle
  refine ⟨⟨(mem_take_schedule hk).2 ⟨⟨hmid.1, hmidLe⟩, Or.inl ?_⟩, hleft⟩,
    ⟨(mem_take_schedule hk).2 ⟨⟨hmid.2, hle⟩, Or.inl ?_⟩, hright⟩⟩
  · show mid - span.1 < span.2 - span.1
    omega
  · show span.2 - mid < span.2 - span.1
    omega

section

variable (hg : t.grammar.WellFormed)

include hg

/-- When some cells are finished, the tables measure what those cells list. -/
theorem exact_after (chain : Nat) : ∀ k : Nat,
    (State.after t .extents chain k).extents.Exact t.grammar.numNonterminals t.sentence.size
      fun x => (x.start, x.stop) ∈ (schedule t.sentence.size).take k ∧
        x.symbol ∈ (State.after t .extents chain k).progress.chart.populated x.start x.stop
  | 0 => (Extents.Exact.start _ _).congr fun x _ => by simp
  | k + 1 => by
      have h := exact_after chain k
      cases hk : (schedule t.sentence.size)[k]? with
      | none =>
          rw [(after_succ_of_none hk).1, List.take_add_one, hk, Option.toList_none,
            List.append_nil]
          exact h
      | some span =>
          obtain ⟨hlt, hle⟩ := isSpan_of_schedule hk
          have hnext := (improving_after hg .extents chain (k + 1)).improved hg
          obtain ⟨skipped, hextents⟩ :=
            extents_fillCell t (State.after t .extents chain k) span
          rw [← after_succ hk] at hextents
          rw [hextents]
          refine ((h.withSkipped skipped).extendAll (by omega) hle fun nt hnt =>
            hnext.lt_of_mem_populated ⟨hlt, hle⟩ hnt).congr fun x _ => ?_
          obtain ⟨start, stop, symbol⟩ := x
          -- What was finished before lists the same, and the new cell comes to it.
          have hsame : (start, stop) ∈ (schedule t.sentence.size).take k →
              (State.after t .extents chain (k + 1)).progress.chart.populated start stop =
                (State.after t .extents chain k).progress.chart.populated start stop := by
            intro hfinished
            rw [chart_after_succ hg, populated, cell_chartAt hg .extents chain _ hfinished,
              populated]
          rw [List.take_add_one, hk, Option.toList_some, List.mem_append, List.mem_singleton]
          constructor
          · rintro (⟨hfinished, hlisted⟩ | ⟨rfl, rfl, hlisted⟩)
            · exact ⟨Or.inl hfinished, (hsame hfinished).symm ▸ hlisted⟩
            · exact ⟨Or.inr rfl, hlisted⟩
          · rintro ⟨hfinished | rfl, hlisted⟩
            · exact Or.inl ⟨hfinished, hsame hfinished ▸ hlisted⟩
            · exact Or.inr ⟨rfl, rfl, hlisted⟩

/-- Between any two commits, the tables measure what is populated in finished cells. -/
theorem exact_chartAt (chain k j : Nat) :
    (State.after t .extents chain k).extents.Exact t.grammar.numNonterminals t.sentence.size
      (Settled t chain k j) := by
  refine (exact_after hg chain k).congr fun x hx => and_congr_right fun hfinished => ?_
  obtain ⟨hand, hcourse⟩ := improving_chartAt hg .extents chain k j
  have himproved := hcourse.improved hg
  have hspan := mem_schedule.1 (List.mem_of_mem_take hfinished)
  rw [populated, ← cell_chartAt hg .extents chain j hfinished, ← populated,
    himproved.mem_populated_iff hspan, and_iff_right hx]
  exact (himproved.coherent.isPopulated_iff (himproved.hasSlot_iff.2 ⟨hspan, hx⟩)).symm

end

/-- Between any two commits of a search, the tables hold the nearest and the furthest stops and
starts of the finished cells in which a nonterminal is populated.  When a cell is filled, the
feasible split points of two children lie strictly inside its span and include every split point
at which both are populated, and there is none of those if no split point is feasible. -/
theorem extents_exact {d : Draft} {t : Task} (hbuild : d.build = .ok t.grammar) (chain : Nat) :
    (∀ old : Extents,
      old.restart t.grammar.numNonterminals t.sentence.size =
        (State.after t .extents chain 0).extents ∧
      (parse ⟨.extents, chain, old⟩ t).1.chart =
        (State.after t .extents chain (schedule t.sentence.size).length).progress.chart ∧
      (parse ⟨.extents, chain, old⟩ t).2.extents =
        (State.after t .extents chain (schedule t.sentence.size).length).extents) ∧
    (∀ k, (State.after t .extents chain (k + 1)).progress.chart =
      State.chartAt t .extents chain k (State.nextCommits t .extents chain k).length) ∧
    (∀ k j, (State.after t .extents chain k).extents.Sized t.grammar.numNonterminals
        t.sentence.size ∧
      ∀ nt < t.grammar.numNonterminals, ∀ position ≤ t.sentence.size,
        (State.after t .extents chain k).extents.Measures t.sentence.size
          (Settled t chain k j) nt position) ∧
    ∀ k j start stop, (schedule t.sentence.size)[k]? = some (start, stop) →
      (∀ first last, (first, last) ∈ (schedule t.sentence.size).take k ↔
        IsSpan t.sentence.size first last ∧ Earlier (first, last) (start, stop)) ∧
      ∀ l < t.grammar.numNonterminals, ∀ r < t.grammar.numNonterminals,
        (∀ low high,
          (State.after t .extents chain k).extents.feasible l r start stop = some (low, high) →
          (start + 1 ≤ low ∧ low ≤ high ∧ high ≤ stop - 1) ∧
          ∀ mid, start < mid ∧ mid < stop →
            (State.chartAt t .extents chain k j).isPopulated start mid l = true →
            (State.chartAt t .extents chain k j).isPopulated mid stop r = true →
            low ≤ mid ∧ mid ≤ high) ∧
        ((State.after t .extents chain k).extents.feasible l r start stop = none →
          ∀ mid, start < mid ∧ mid < stop →
            (State.chartAt t .extents chain k j).isPopulated start mid l = true →
            ¬ (State.chartAt t .extents chain k j).isPopulated mid stop r = true) := by
  have hg := wellFormed_of_build hbuild
  refine ⟨fun old => ⟨old.restart_eq _ _, ?_, ?_⟩, ?_, fun k j => ?_, ?_⟩
  · rw [← run_eq_after]
    rfl
  · rw [← run_eq_after]
    rfl
  · exact chart_after_succ hg .extents chain
  · exact ⟨(exact_chartAt hg chain k j).sized, (exact_chartAt hg chain k j).measures⟩
  · intro k j start stop hk
    have hexact := exact_chartAt hg chain k j
    have hspan := isSpan_of_schedule hk
    refine ⟨fun first last => mem_take_schedule hk, fun l hl r hr => ⟨?_, ?_⟩⟩
    · intro low high hfeasible
      refine ⟨hexact.feasible_inside (fun x hx =>
        (mem_schedule.1 (List.mem_of_mem_take hx.1)).1) hl hr hspan hfeasible, ?_⟩
      intro mid hmid hleft hright
      obtain ⟨hsettled, hsettled'⟩ := settled_children hk hmid hleft hright
      obtain ⟨low', high', hfeasible', hcovers⟩ :=
        hexact.feasible_covers hl hr hmid hspan.2 hsettled hsettled'
      rw [hfeasible] at hfeasible'
      cases hfeasible'
      exact hcovers
    · intro hfeasible mid hmid hleft hright
      obtain ⟨hsettled, hsettled'⟩ := settled_children hk hmid hleft hright
      obtain ⟨low, high, hsome, -⟩ :=
        hexact.feasible_covers hl hr hmid hspan.2 hsettled hsettled'
      rw [hfeasible] at hsome
      cases hsome

/-- When both words are finished and the span of both is filled, `S` is measured up to the end of
the first word, nothing stops before that word, and the words meet in the only split point. -/
theorem extents_exact_circular :
    (schedule circularTask.sentence.size)[2]? = some (0, 2) ∧
      LeastOr 3 {stop | Settled circularTask 1 2 0 ⟨0, stop, 0⟩} 1 ∧
      GreatestOr (-1) {start | Settled circularTask 1 2 0 ⟨start, 0, 0⟩} (-1) ∧
      (State.after circularTask .extents 1 2).extents.feasible 0 0 0 2 = some (1, 1) ∧
      ∀ mid, 0 < mid ∧ mid < 2 →
        (State.chartAt circularTask .extents 1 2 0).isPopulated 0 mid 0 = true →
        (State.chartAt circularTask .extents 1 2 0).isPopulated mid 2 0 = true →
        1 ≤ mid ∧ mid ≤ 1 := by
  obtain ⟨-, -, htables, hsplits⟩ := extents_exact (t := circularTask) circularDraft_builds 1
  have hspan : (schedule circularTask.sentence.size)[2]? = some (0, 2) := by decide +kernel
  have hsize : circularTask.sentence.size = 2 := by decide +kernel
  have hsymbol : 0 < circularTask.grammar.numNonterminals := by decide +kernel
  have hentry := (htables 2 0).2 0 hsymbol 0 (Nat.zero_le _)
  have hnear := hentry.nearStop
  have hbefore := hentry.nearStart
  rw [show (State.after circularTask .extents 1 2).extents.nearStop.getD _ 0 = 1 by
    decide +kernel, hsize] at hnear
  rw [show (State.after circularTask .extents 1 2).extents.nearStart.getD _ 0 = -1 by
    decide +kernel] at hbefore
  have hfeasible : (State.after circularTask .extents 1 2).extents.feasible 0 0 0 2 =
      some (1, 1) := by decide +kernel
  obtain ⟨-, hpairs⟩ := hsplits 2 0 0 2 hspan
  exact ⟨hspan, hnear, hbefore, hfeasible, ((hpairs 0 hsymbol 0 hsymbol).1 1 1 hfeasible).2⟩

end BottomUp
end BestParse
