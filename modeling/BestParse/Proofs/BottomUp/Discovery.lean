import BestParse.Proofs.BottomUp.Cell
import BestParse.Proofs.BottomUp.Extents

/-!
# What the discoveries find

Every proposal of a discovery *fits*: a binary production at a split point, with the
scores of its two children (`fits_of_mem_proposals`).  And every combination of
reachable children is matched by a proposal for the same parent that scores at least
as well (`finds_proposals`).

Three discoveries propose the combination itself.  The discovery by pairs proposes the
same production at the pair's best split point; the children are summed before the
production is added, and rounding is monotone, so a better sum gives a derivation at
least as good.
-/

namespace BestParse

namespace BottomUp

open Chart

/-- A proposal is a binary production at a split point, with the scores of its
children. -/
def Proposal.Fits (t : Task) (c : Chart) (start stop : Nat) (q : Proposal) : Prop :=
  q.production < t.grammar.numProductions ∧
    (t.limits.splits start stop).contains q.mid = true ∧
    ∃ l r, (t.grammar.production q.production).expansion = .binary l r ∧
      q.left = c.bestAt ⟨start, q.mid, l⟩ ∧ q.right = c.bestAt ⟨q.mid, stop, r⟩

/-- A proposal scores at least as well as a score, for the parent of a production. -/
def Proposal.Matches (g : Grammar) (id : ProductionId) (x : Score) (q : Proposal) : Prop :=
  (g.production q.production).parent = (g.production id).parent ∧
    ∃ x', Score.combine (g.production q.production).logprob q.left q.right = some x' ∧
      x.rank ≤ x'.rank

/-- Two reachable children at a split point, the production that joins them, and the
score. -/
structure Joins (t : Task) (c : Chart) (start stop : Nat) (id : ProductionId) (l r : NonTerminal)
    (mid : Nat) (x : Score) : Prop where
  production_lt : id < t.grammar.numProductions
  expansion_eq : (t.grammar.production id).expansion = .binary l r
  split : (t.limits.splits start stop).contains mid = true
  combine_eq : Score.combine (t.grammar.production id).logprob (c.bestAt ⟨start, mid, l⟩)
    (c.bestAt ⟨mid, stop, r⟩) = some x

variable {t : Task} {chain : Nat} {c : Chart} {start stop : Nat} {id : ProductionId}
  {l r : NonTerminal} {mid : Nat} {x : Score}

namespace Joins

theorem left_reachable (h : Joins t c start stop id l r mid x) :
    (c.bestAt ⟨start, mid, l⟩).isReachable = true :=
  (Score.combine_eq_some_iff.1 h.combine_eq).1

theorem right_reachable (h : Joins t c start stop id l r mid x) :
    (c.bestAt ⟨mid, stop, r⟩).isReachable = true :=
  (Score.combine_eq_some_iff.1 h.combine_eq).2.1

/-- The children are slots of the chart. -/
theorem hasSlots (h : Joins t c start stop id l r mid x) (hc : c.IsFor t chain)
    (hg : t.grammar.WellFormed) (hstop : stop ≤ t.sentence.size) :
    c.HasSlot ⟨start, mid, l⟩ ∧ c.HasSlot ⟨mid, stop, r⟩ := by
  obtain ⟨hlo, hhi⟩ := Limits.splits_inside h.split
  have hchildren := hg.children_scoped id h.production_lt
  rw [h.expansion_eq] at hchildren
  unfold HasSlot
  rw [hc.size_eq, hc.symbols_eq]
  exact ⟨⟨⟨hlo, Nat.le_trans (Nat.le_of_lt hhi) hstop⟩, hchildren.1⟩, ⟨hhi, hstop⟩, hchildren.2⟩

theorem mem_leftChildren (h : Joins t c start stop id l r mid x) (hc : c.Sound t chain)
    (hg : t.grammar.WellFormed) (hstop : stop ≤ t.sentence.size) :
    l ∈ c.leftChildren start mid := by
  obtain ⟨hl, -⟩ := h.hasSlots hc.isFor hg hstop
  rw [hc.coherent.left_eq _ _ hl.1, List.mem_filter]
  exact ⟨(hc.coherent.populated_iff _ _ _ hl.1).2 ⟨hl.2, h.left_reachable⟩,
    hg.isLeftChild_iff.2 ⟨id, r, h.production_lt, h.expansion_eq⟩⟩

theorem mem_rightChildren (h : Joins t c start stop id l r mid x) (hc : c.Sound t chain)
    (hg : t.grammar.WellFormed) (hstop : stop ≤ t.sentence.size) :
    r ∈ c.rightChildren mid stop := by
  obtain ⟨-, hr⟩ := h.hasSlots hc.isFor hg hstop
  rw [hc.coherent.right_eq _ _ hr.1, List.mem_filter]
  exact ⟨(hc.coherent.populated_iff _ _ _ hr.1).2 ⟨hr.2, h.right_reachable⟩,
    hg.isRightChild_iff.2 ⟨id, l, h.production_lt, h.expansion_eq⟩⟩

/-- The proposal of the combination itself. -/
theorem matches_self (h : Joins t c start stop id l r mid x) :
    Proposal.Matches t.grammar id x
      ⟨id, mid, c.bestAt ⟨start, mid, l⟩, c.bestAt ⟨mid, stop, r⟩⟩ :=
  ⟨rfl, x, h.combine_eq, Int.le_refl _⟩

end Joins

/-! ## By productions -/

theorem proposalAt_eq_some {q : Proposal} :
    proposalAt t.grammar c start stop id mid = some q ↔
      ∃ l r, (t.grammar.production id).expansion = .binary l r ∧
        (c.bestAt ⟨start, mid, l⟩).isReachable = true ∧
        ⟨id, mid, c.bestAt ⟨start, mid, l⟩, c.bestAt ⟨mid, stop, r⟩⟩ = q := by
  unfold proposalAt
  split
  · next l r hexp =>
    constructor
    · intro h
      obtain ⟨hreach, hq⟩ := Option.ite_none_right_eq_some.1 h
      exact ⟨l, r, hexp, hreach, Option.some.inj hq⟩
    · rintro ⟨l', r', hexp', hreach, rfl⟩
      cases hexp.symm.trans hexp'
      exact if_pos hreach
  · next hnot =>
    constructor
    · exact nofun
    · rintro ⟨l, r, heq, -⟩
      exact absurd heq (hnot l r)

theorem fits_of_proposalAt {q : Proposal} (hid : id < t.grammar.numProductions)
    (hmid : (t.limits.splits start stop).contains mid = true)
    (hq : proposalAt t.grammar c start stop id mid = some q) : q.Fits t c start stop := by
  obtain ⟨l, r, hexp, -, rfl⟩ := proposalAt_eq_some.1 hq
  exact ⟨hid, hmid, l, r, hexp, rfl, rfl⟩

theorem fits_productions (hg : t.grammar.WellFormed) {q : Proposal}
    (hq : q ∈ proposalsByProductions t.grammar t.limits c start stop) : q.Fits t c start stop := by
  simp only [proposalsByProductions, List.mem_flatMap, List.mem_filterMap, Interval.mem_positions,
    hg.mem_allBinary] at hq
  obtain ⟨mid, hmid, id, ⟨hid, -⟩, hat⟩ := hq
  exact fits_of_proposalAt hid hmid hat

theorem finds_productions (hg : t.grammar.WellFormed) (h : Joins t c start stop id l r mid x) :
    ∃ q ∈ proposalsByProductions t.grammar t.limits c start stop, q.Matches t.grammar id x := by
  refine ⟨_, ?_, h.matches_self⟩
  simp only [proposalsByProductions, List.mem_flatMap, List.mem_filterMap, Interval.mem_positions,
    hg.mem_allBinary]
  exact ⟨mid, h.split, id, ⟨h.production_lt, l, r, h.expansion_eq⟩,
    proposalAt_eq_some.2 ⟨l, r, h.expansion_eq, h.left_reachable, rfl⟩⟩

/-! ## By lists of left children -/

theorem mem_proposalsByLeftLists (hg : t.grammar.WellFormed) {q : Proposal} :
    q ∈ proposalsByLeftLists t.grammar t.limits c start stop ↔
      ∃ mid l id r, (t.limits.splits start stop).contains mid = true ∧
        l ∈ c.leftChildren start mid ∧
        id < t.grammar.numProductions ∧ (t.grammar.production id).expansion = .binary l r ∧
        (c.bestAt ⟨mid, stop, r⟩).isReachable = true ∧
        ⟨id, mid, c.bestAt ⟨start, mid, l⟩, c.bestAt ⟨mid, stop, r⟩⟩ = q := by
  simp only [proposalsByLeftLists, List.mem_flatMap, List.mem_filterMap, Interval.mem_positions,
    hg.mem_binaryWithLeft]
  constructor
  · rintro ⟨mid, hmid, l, hl, id, ⟨hid, r, hexp⟩, hq⟩
    rw [hexp] at hq
    obtain ⟨hreach, hq⟩ := Option.ite_none_right_eq_some.1 hq
    exact ⟨mid, l, id, r, hmid, hl, hid, hexp, hreach, Option.some.inj hq⟩
  · rintro ⟨mid, l, id, r, hmid, hl, hid, hexp, hreach, rfl⟩
    refine ⟨mid, hmid, l, hl, id, ⟨hid, r, hexp⟩, ?_⟩
    rw [hexp]
    exact if_pos hreach

theorem fits_leftLists (hg : t.grammar.WellFormed) {q : Proposal}
    (hq : q ∈ proposalsByLeftLists t.grammar t.limits c start stop) : q.Fits t c start stop := by
  obtain ⟨mid, l, id, r, hmid, -, hid, hexp, -, rfl⟩ := (mem_proposalsByLeftLists hg).1 hq
  exact ⟨hid, hmid, l, r, hexp, rfl, rfl⟩

theorem finds_leftLists (hg : t.grammar.WellFormed) (hc : c.Sound t chain)
    (hstop : stop ≤ t.sentence.size) (h : Joins t c start stop id l r mid x) :
    ∃ q ∈ proposalsByLeftLists t.grammar t.limits c start stop, q.Matches t.grammar id x := by
  refine ⟨_, (mem_proposalsByLeftLists hg).2 ?_, h.matches_self⟩
  exact ⟨mid, l, id, r, h.split, h.mem_leftChildren hc hg hstop, h.production_lt, h.expansion_eq,
    h.right_reachable, rfl⟩

/-! ## By pairs -/

/-- The sum of two children at a split point. -/
def pairSum (c : Chart) (start stop : Nat) (visit : Nat × (NonTerminal × NonTerminal)) : Score :=
  c.bestAt ⟨start, visit.1, visit.2.1⟩ + c.bestAt ⟨visit.1, stop, visit.2.2⟩

/-- The pairs in the order in which they are taken up, with their split points. -/
def visits (g : Grammar) (limits : Limits) (c : Chart) (start stop : Nat) :
    List (Nat × (NonTerminal × NonTerminal)) :=
  (limits.splits start stop).positions.flatMap fun mid =>
    (pairsAt g c start mid stop).map fun pair => (mid, pair)

theorem bestSplits_eq (g : Grammar) (limits : Limits) (c : Chart) (start stop : Nat) :
    bestSplits g limits c start stop =
      (visits g limits c start stop).foldl
        (fun best visit => keepBestSplit c start visit.1 stop best visit.2) ∅ := by
  rw [bestSplits, visits, List.foldl_flatMap]
  simp only [List.foldl_map]

/-- The map holds, for every pair visited, a visited split point with the greatest
sum. -/
structure BestOfVisits (c : Chart) (start stop : Nat)
    (list : List (Nat × (NonTerminal × NonTerminal))) (best : PairMap (Score × Nat)) : Prop where
  visited : ∀ pair v m, best[pair]? = some (v, m) →
    (m, pair) ∈ list ∧ v ≠ .nan ∧ v.rank = (pairSum c start stop (m, pair)).rank
  greatest : ∀ visit ∈ list, ∃ v m, best[visit.2]? = some (v, m) ∧
    (pairSum c start stop visit).rank ≤ v.rank

theorem bestOfVisits_keepBestSplit {list : List (Nat × (NonTerminal × NonTerminal))}
    {best : PairMap (Score × Nat)} (h : BestOfVisits c start stop list best)
    {visit : Nat × (NonTerminal × NonTerminal)} (hnum : pairSum c start stop visit ≠ .nan) :
    BestOfVisits c start stop (list ++ [visit])
      (keepBestSplit c start visit.1 stop best visit.2) := by
  obtain ⟨mid, pair⟩ := visit
  have hmem : (mid, pair) ∈ list ++ [(mid, pair)] :=
    List.mem_append_right _ (List.mem_singleton_self _)
  -- The entry written: a visited split point, no worse than the old one and the new one.
  have hentry : ∃ v m, (keepBestSplit c start mid stop best pair)[pair]? = some (v, m) ∧
      (m, pair) ∈ list ++ [(mid, pair)] ∧ v ≠ .nan ∧
      v.rank = (pairSum c start stop (m, pair)).rank ∧
      (pairSum c start stop (mid, pair)).rank ≤ v.rank ∧
      ∀ v' m', best[pair]? = some (v', m') → v'.rank ≤ v.rank := by
    unfold keepBestSplit
    dsimp only
    rw [Std.TreeMap.getElem?_insert_self, Std.TreeMap.getD_eq_getD_getElem?]
    change ∃ v m, some (if (pairSum c start stop (mid, pair)).improves _ = true then _ else _) =
      some (v, m) ∧ _
    cases hold : best[pair]? with
    | none =>
        rw [Option.getD_none]
        by_cases himp : (pairSum c start stop (mid, pair)).improves .unreachable = true
        · rw [if_pos himp]
          exact ⟨_, _, rfl, hmem, hnum, rfl, Int.le_refl _, nofun⟩
        · have hle := Score.rank_le_of_not_improves (b := .unreachable) hnum nofun himp
          rw [if_neg himp]
          exact ⟨_, _, rfl, hmem, nofun, Int.le_antisymm (Score.negInf_rank_le _) hle, hle, nofun⟩
    | some old =>
        obtain ⟨v, m⟩ := old
        obtain ⟨hvisited, hv, hsum⟩ := h.visited pair v m hold
        rw [Option.getD_some]
        by_cases himp : (pairSum c start stop (mid, pair)).improves v = true
        · rw [if_pos himp]
          refine ⟨_, _, rfl, hmem, hnum, rfl, Int.le_refl _, ?_⟩
          intro v' m' heq
          cases heq
          exact Int.le_of_lt (Score.improves_iff.1 himp).2.2
        · rw [if_neg himp]
          refine ⟨_, _, rfl, List.mem_append_left _ hvisited, hv, hsum,
            Score.rank_le_of_not_improves hnum hv himp, ?_⟩
          intro v' m' heq
          cases heq
          exact Int.le_refl _
  -- Other pairs keep their entries.
  have hother : ∀ pair', pair' ≠ pair →
      (keepBestSplit c start mid stop best pair)[pair']? = best[pair']? := by
    intro pair' hne
    unfold keepBestSplit
    dsimp only
    rw [Std.TreeMap.getElem?_insert, if_neg]
    intro heq
    exact hne (Std.LawfulEqCmp.compare_eq_iff_eq.1 heq).symm
  obtain ⟨v, m, hget, hvisited, hv, hsum, hnew, hold⟩ := hentry
  constructor
  · intro pair' v' m' hget'
    by_cases hpair : pair' = pair
    · subst hpair
      rw [hget] at hget'
      cases hget'
      exact ⟨hvisited, hv, hsum⟩
    · rw [hother pair' hpair] at hget'
      obtain ⟨hvisited', hv', hsum'⟩ := h.visited pair' v' m' hget'
      exact ⟨List.mem_append_left _ hvisited', hv', hsum'⟩
  · rintro ⟨mid', pair'⟩ hmem'
    by_cases hpair : pair' = pair
    · subst hpair
      refine ⟨v, m, hget, ?_⟩
      rcases List.mem_append.1 hmem' with hbefore | hlast
      · obtain ⟨v', m', hget', hle⟩ := h.greatest _ hbefore
        exact Int.le_trans hle (hold v' m' hget')
      · cases List.mem_singleton.1 hlast
        exact hnew
    · rcases List.mem_append.1 hmem' with hbefore | hlast
      · obtain ⟨v', m', hget', hle⟩ := h.greatest _ hbefore
        exact ⟨v', m', (hother pair' hpair).trans hget', hle⟩
      · cases List.mem_singleton.1 hlast
        exact absurd rfl hpair

theorem bestOfVisits_foldl (list : List (Nat × (NonTerminal × NonTerminal)))
    (hnum : ∀ visit ∈ list, pairSum c start stop visit ≠ .nan) :
    BestOfVisits c start stop list
      (list.foldl (fun best visit => keepBestSplit c start visit.1 stop best visit.2) ∅) := by
  induction list using List.reverseRecOn with
  | nil => exact ⟨fun pair v m h => by simp at h, nofun⟩
  | append_singleton list visit ih =>
      rw [List.foldl_append]
      refine bestOfVisits_keepBestSplit (ih fun visit' hv => ?_) ?_
      · exact hnum visit' (List.mem_append_left _ hv)
      · exact hnum visit (List.mem_append_right _ (List.mem_singleton_self _))

theorem mem_visits {visit : Nat × (NonTerminal × NonTerminal)} :
    visit ∈ visits t.grammar t.limits c start stop ↔
      (t.limits.splits start stop).contains visit.1 = true ∧
        visit.2.1 ∈ c.leftChildren start visit.1 ∧ visit.2.2 ∈ c.rightChildren visit.1 stop ∧
        t.grammar.binaryWithPair visit.2.1 visit.2.2 ≠ [] := by
  obtain ⟨mid, l, r⟩ := visit
  simp only [visits, pairsAt, List.mem_flatMap, List.mem_map, List.mem_filterMap,
    Interval.mem_positions, Option.ite_none_left_eq_some, List.isEmpty_iff]
  constructor
  · rintro ⟨mid', hmid, pair, ⟨l', hl, r', hr, hne, heq⟩, hvisit⟩
    cases heq
    cases hvisit
    exact ⟨hmid, hl, hr, hne⟩
  · rintro ⟨hmid, hl, hr, hne⟩
    exact ⟨mid, hmid, (l, r), ⟨l, hl, r, hr, hne, rfl⟩, rfl⟩

theorem mem_proposalsByPairs (hg : t.grammar.WellFormed) {q : Proposal} :
    q ∈ proposalsByPairs t.grammar t.limits c start stop ↔
      ∃ l r v mid id, (bestSplits t.grammar t.limits c start stop)[(l, r)]? = some (v, mid) ∧
        id < t.grammar.numProductions ∧ (t.grammar.production id).expansion = .binary l r ∧
        ⟨id, mid, c.bestAt ⟨start, mid, l⟩, c.bestAt ⟨mid, stop, r⟩⟩ = q := by
  simp only [proposalsByPairs, List.mem_flatMap, List.mem_map, hg.mem_binaryWithPair,
    Prod.exists, Std.TreeMap.mem_toList_iff_getElem?_eq_some]
  constructor
  · rintro ⟨l, r, v, mid, hget, id, ⟨hid, hexp⟩, hq⟩
    exact ⟨l, r, v, mid, id, hget, hid, hexp, hq⟩
  · rintro ⟨l, r, v, mid, id, hget, hid, hexp, hq⟩
    exact ⟨l, r, v, mid, hget, id, ⟨hid, hexp⟩, hq⟩

section

variable (hc : c.Sound t chain) (hstop : stop ≤ t.sentence.size)

include hc hstop

/-- Both children of a visited pair are reachable. -/
theorem reachable_of_mem_visits {visit : Nat × (NonTerminal × NonTerminal)}
    (h : visit ∈ visits t.grammar t.limits c start stop) :
    (c.bestAt ⟨start, visit.1, visit.2.1⟩).isReachable = true ∧
      (c.bestAt ⟨visit.1, stop, visit.2.2⟩).isReachable = true := by
  obtain ⟨hmid, hl, hr, -⟩ := mem_visits.1 h
  obtain ⟨hlo, hhi⟩ := Limits.splits_inside hmid
  have hspanl : IsSpan c.size start visit.1 := by
    rw [hc.isFor.size_eq]
    exact ⟨hlo, Nat.le_trans (Nat.le_of_lt hhi) hstop⟩
  have hspanr : IsSpan c.size visit.1 stop := by
    rw [hc.isFor.size_eq]
    exact ⟨hhi, hstop⟩
  rw [hc.coherent.left_eq _ _ hspanl, List.mem_filter] at hl
  rw [hc.coherent.right_eq _ _ hspanr, List.mem_filter] at hr
  exact ⟨((hc.coherent.populated_iff _ _ _ hspanl).1 hl.1).2,
    ((hc.coherent.populated_iff _ _ _ hspanr).1 hr.1).2⟩

theorem bestOfVisits_bestSplits :
    BestOfVisits c start stop (visits t.grammar t.limits c start stop)
      (bestSplits t.grammar t.limits c start stop) := by
  rw [bestSplits_eq]
  refine bestOfVisits_foldl _ fun visit hvisit => ?_
  obtain ⟨hl, hr⟩ := reachable_of_mem_visits hc hstop hvisit
  exact Score.add_ne_nan hl hr

theorem fits_pairs (hg : t.grammar.WellFormed) {q : Proposal}
    (hq : q ∈ proposalsByPairs t.grammar t.limits c start stop) : q.Fits t c start stop := by
  obtain ⟨l, r, v, mid, id, hget, hid, hexp, rfl⟩ := (mem_proposalsByPairs hg).1 hq
  obtain ⟨hvisited, -⟩ := (bestOfVisits_bestSplits hc hstop).visited _ _ _ hget
  exact ⟨hid, (mem_visits.1 hvisited).1, l, r, hexp, rfl, rfl⟩

/-- The pair's best split point gives a derivation at least as good as any other. -/
theorem finds_pairs (hg : t.grammar.WellFormed) (h : Joins t c start stop id l r mid x) :
    ∃ q ∈ proposalsByPairs t.grammar t.limits c start stop, q.Matches t.grammar id x := by
  have hbest := @bestOfVisits_bestSplits t chain c start stop hc hstop
  have hpair := hg.mem_binaryWithPair.2 ⟨h.production_lt, h.expansion_eq⟩
  have hvisit : (mid, (l, r)) ∈ visits t.grammar t.limits c start stop :=
    mem_visits.2 ⟨h.split, h.mem_leftChildren hc hg hstop, h.mem_rightChildren hc hg hstop,
      List.ne_nil_of_mem hpair⟩
  obtain ⟨v, m, hget, hle⟩ := hbest.greatest _ hvisit
  obtain ⟨hvisited, -, hsum⟩ := hbest.visited _ _ _ hget
  obtain ⟨hl, hr⟩ := reachable_of_mem_visits hc hstop hvisited
  refine ⟨_, (mem_proposalsByPairs hg).2 ⟨l, r, v, m, id, hget, h.production_lt,
    h.expansion_eq, rfl⟩, rfl, _, Score.combine_eq_some_iff.2 ⟨hl, hr, rfl⟩, ?_⟩
  have hx := Score.combine_ne_nan (hg.finite id h.production_lt) h.combine_eq
  obtain ⟨-, -, rfl⟩ := Score.combine_eq_some_iff.1 h.combine_eq
  rw [hsum] at hle
  exact Score.rank_add_le_add hx (Int.le_refl _) hle

end

/-! ## By extents -/

theorem mem_proposalsByExtents (hg : t.grammar.WellFormed) {extents : Extents} {q : Proposal} :
    q ∈ proposalsByExtents t.grammar t.limits c extents start stop ↔
      ∃ id l r low high mid, id < t.grammar.numProductions ∧
        (t.grammar.production id).expansion = .binary l r ∧
        extents.feasible l r start stop = some (low, high) ∧
        (t.limits.splits start stop).contains mid = true ∧ low ≤ mid ∧ mid ≤ high ∧
        proposalAt t.grammar c start stop id mid = some q := by
  unfold proposalsByExtents
  dsimp only
  split
  · next hempty =>
    refine ⟨nofun, ?_⟩
    rintro ⟨id, l, r, low, high, mid, -, -, -, hmid, -⟩
    rw [Interval.isEmpty, decide_eq_true_eq] at hempty
    simp only [Interval.contains, Bool.and_eq_true, decide_eq_true_eq] at hmid
    omega
  · next hempty =>
    rw [Interval.isEmpty, decide_eq_true_eq] at hempty
    simp only [List.mem_flatMap, hg.mem_allBinary]
    constructor
    · rintro ⟨id, ⟨hid, l, r, hexp⟩, hq⟩
      rw [feasibleSplits, hexp] at hq
      dsimp only at hq
      split at hq
      · cases hq
      · next low high hfeasible =>
        obtain ⟨mid, hmid, hat⟩ := List.mem_filterMap.1 hq
        simp only [Interval.mem_positions, Interval.contains, Bool.and_eq_true,
          decide_eq_true_eq] at hmid
        refine ⟨id, l, r, low, high, mid, hid, hexp, hfeasible, ?_, ?_, ?_, hat⟩
        · simp only [Interval.contains, Bool.and_eq_true, decide_eq_true_eq]
          omega
        · omega
        · omega
    · rintro ⟨id, l, r, low, high, mid, hid, hexp, hfeasible, hmid, hlow, hhigh, hat⟩
      refine ⟨id, ⟨hid, l, r, hexp⟩, ?_⟩
      rw [feasibleSplits, hexp]
      dsimp only
      rw [hfeasible]
      dsimp only
      refine List.mem_filterMap.2 ⟨mid, ?_, hat⟩
      simp only [Interval.contains, Bool.and_eq_true, decide_eq_true_eq] at hmid
      simp only [Interval.mem_positions, Interval.contains, Bool.and_eq_true, decide_eq_true_eq]
      omega

theorem fits_extents (hg : t.grammar.WellFormed) {extents : Extents} {q : Proposal}
    (hq : q ∈ proposalsByExtents t.grammar t.limits c extents start stop) :
    q.Fits t c start stop := by
  obtain ⟨id, l, r, low, high, mid, hid, -, -, hmid, -, -, hat⟩ := (mem_proposalsByExtents hg).1 hq
  exact fits_of_proposalAt hid hmid hat

theorem finds_extents (hg : t.grammar.WellFormed) {extents : Extents}
    (h : Joins t c start stop id l r mid x) (hl : extents.Knows ⟨start, mid, l⟩)
    (hr : extents.Knows ⟨mid, stop, r⟩) :
    ∃ q ∈ proposalsByExtents t.grammar t.limits c extents start stop,
      q.Matches t.grammar id x := by
  obtain ⟨low, high, hfeasible, hlow, hhigh⟩ := Extents.feasible_of_knows hl hr
  refine ⟨_, (mem_proposalsByExtents hg).2 ?_, h.matches_self⟩
  exact ⟨id, l, r, low, high, mid, h.production_lt, h.expansion_eq, hfeasible, h.split, hlow, hhigh,
    proposalAt_eq_some.2 ⟨l, r, h.expansion_eq, h.left_reachable, rfl⟩⟩

/-! ## By any discovery -/

theorem fits_of_mem_proposals (hg : t.grammar.WellFormed) (hc : c.Sound t chain)
    (hstop : stop ≤ t.sentence.size) {extents : Extents} {discovery : Discovery} {q : Proposal}
    (hq : q ∈ proposals t.grammar t.limits c extents start stop discovery) :
    q.Fits t c start stop := by
  cases discovery with
  | productions => exact fits_productions hg hq
  | leftLists => exact fits_leftLists hg hq
  | pairs => exact fits_pairs hc hstop hg hq
  | extents => exact fits_extents hg hq

theorem finds_proposals (hg : t.grammar.WellFormed) (hc : c.Sound t chain)
    (hstop : stop ≤ t.sentence.size) {extents : Extents} (discovery : Discovery)
    (h : Joins t c start stop id l r mid x)
    (hknows : discovery = .extents →
      extents.Knows ⟨start, mid, l⟩ ∧ extents.Knows ⟨mid, stop, r⟩) :
    ∃ q ∈ proposals t.grammar t.limits c extents start stop discovery,
      q.Matches t.grammar id x := by
  cases discovery with
  | productions => exact finds_productions hg h
  | leftLists => exact finds_leftLists hg hc hstop h
  | pairs => exact finds_pairs hc hstop hg h
  | extents => exact finds_extents hg h (hknows rfl).1 (hknows rfl).2

end BottomUp
end BestParse
