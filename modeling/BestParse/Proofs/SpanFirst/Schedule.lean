import BestParse.Proofs.SpanFirst.Halting

/-!
# The schedule of spans

Between two turns the keys are exactly those that would be computed over the chart as it stands,
if the figure of merit looks at the edge alone (`keyRule_current`).  For then a key depends on
the improving edges over its span and on nothing else, and these are the same except over the
span visited and its parents, whose keys are computed anew.

So a span has a key just when some improving edge over it has a reachable figure, and the span
that is visited next has an edge with the best figure in the whole sentence (`schedule_spec`).
-/

namespace BestParse

/-- The figure of merit looks at the edge alone. -/
def Task.RatesEdges (t : Task) : Prop :=
  ∀ e c c', t.merit.score e c = t.merit.score e c'

namespace SpanFirst

open Chart
open BottomUp (Joins)

variable {t : Task} {chain n : Nat} {s : State} {p : SpanFirst} {k span : Nat × Nat} {fom : Score}

/-! ## Keys over the chart as it stands -/

/-- The key of a span is the one computed over the chart as it stands. -/
def Current (t : Task) (c : Chart) (span : Nat × Nat) (key : Option Score) : Prop :=
  key = keyOf? t c span

theorem keyRule_current (hmerit : t.RatesEdges) (chain : Nat) : KeyRule t chain (Current t) where
  anew _ _ _ _ := rfl
  congr c c' span key h hedges := by
    have hscore : ∀ e, t.merit.score e c' = t.merit.score e c := fun e => hmerit e c' c
    simp only [Current, keyOf?, bestFom, hedges, hscore] at h ⊢
    exact h
  edge c span fom h := by
    obtain ⟨e, he, -⟩ := exists_of_keyOf? h.symm
    exact ⟨e, he⟩

/-! ## Keys as entries -/

/-- A key is listed once. -/
theorem filter_toList (keys : PairMap Score) (span : Nat × Nat) :
    keys.toList.filter (fun x => x.1 = span) = (keys[span]?.map fun fom => (span, fom)).toList := by
  have hmem : ∀ x, x ∈ keys.toList.filter (fun x => x.1 = span) ↔
      x.1 = span ∧ keys[span]? = some x.2 := fun x => by
    rw [List.mem_filter, Std.TreeMap.mem_toList_iff_getElem?_eq_some, decide_eq_true_iff, and_comm]
    exact and_congr_right fun heq => by rw [heq]
  have hnodup : (keys.toList.filter fun x => x.1 = span).Nodup := by
    refine (List.Pairwise.imp (fun {x y} hne heq => ?_) keys.distinct_keys_toList).filter _
    exact hne (Std.LawfulEqCmp.compare_eq_iff_eq.2 (congrArg Prod.fst heq))
  cases hkey : keys[span]? with
  | none =>
      refine List.eq_nil_iff_forall_not_mem.2 fun x hx => ?_
      cases hkey.symm.trans ((hmem x).1 hx).2
  | some fom =>
      refine List.perm_singleton.1 ((List.perm_ext_iff_of_nodup hnodup
        (List.nodup_singleton _)).2 fun x => ?_)
      rw [hmem, hkey, List.mem_singleton]
      exact ⟨fun ⟨hspan, hfom⟩ => Prod.ext hspan (Option.some.inj hfom).symm,
        fun heq => by rw [heq]; exact ⟨rfl, rfl⟩⟩

theorem Orderly.wide_of_mem (h : Orderly t chain s) {x : (Nat × Nat) × Score}
    (hx : x ∈ s.keys.toList) : Wide t x.1 ∧ t.limits.isOpen x.1.1 x.1.2 = true :=
  h.wide x.1 x.2 (Std.TreeMap.mem_toList_iff_getElem?_eq_some.1 hx)

/-- The span that is visited next precedes every other span that has a key. -/
theorem Orderly.precedes_of_mem (h : Orderly t chain s) (htop : s.top? = some (k, fom))
    {x : (Nat × Nat) × Score} (hx : x ∈ s.keys.toList) (hne : x.1 ≠ k) :
    precedes (k, fom) x = true := by
  obtain ⟨hkey, hfirst⟩ := State.top?_eq_some htop
  have hxkey := Std.TreeMap.mem_toList_iff_getElem?_eq_some.1 hx
  have hordered : ∀ {y : Nat × Nat}, Wide t y → y.1 ≤ y.2 := fun hy =>
    Nat.le_of_lt hy.isSpan.1
  exact (precedes_or_eq (hordered (h.wide k fom hkey).1) (hordered (h.wide_of_mem hx).1)
    (hfirst x.1 x.2 hxkey)).resolve_right fun heq => hne heq.symm

/-- No improving edge of an open span has a better figure than the first key. -/
theorem Keyed.figure_le_top (h : Keyed t chain (Current t) s) (htop : s.top? = some (k, fom))
    (hwide : Wide t span) (hopen : t.limits.isOpen span.1 span.2 = true) {e : Edge}
    (he : e ∈ improvingEdges t s.chart span.1 span.2) :
    (t.merit.score e s.chart).improves fom = false := by
  rw [← Bool.not_eq_true, Score.improves_iff]
  rintro ⟨hnum, -, hlt⟩
  obtain ⟨hbest, -, hall⟩ := bestFom_spec (t := t) s.chart hopen
  have hle := hall e he hnum
  -- So the span of the edge has a key, and one that is above the first.
  have hreach : (bestFom t s.chart span.1 span.2).isReachable = true :=
    Score.isReachable_iff_rank.2 ⟨hbest,
      Int.lt_of_le_of_lt (Score.negInf_rank_le fom) (Int.lt_of_lt_of_le hlt hle)⟩
  have hkey : s.keys[span]? = some (bestFom t s.chart span.1 span.2) :=
    (h.keys span hwide).trans (if_pos hreach)
  have hfirst := rank_le_of_not_precedes ((State.top?_eq_some htop).2 _ _ hkey)
  exact Int.lt_irrefl _ (Int.lt_of_lt_of_le hlt (Int.le_trans hle hfirst))

/-! ## The schedule -/

/-- After every turn, the spans with a key are the open spans of two words or more over which an
improving edge has a reachable figure; each is listed once, with the best such figure.  The span
that is visited next precedes the others: by its figure, then as the narrower one, then as the one
further left.  Its figure is that of an improving edge over it, and no binary edge of the sentence
that the limits allow and that would improve its layer has a better one. -/
theorem schedule_spec {d : Draft} {t : Task} (hbuild : d.build = .ok t.grammar)
    (hmerit : t.RatesEdges) {p : SpanFirst} {n : Nat} {s : State} (hafter : After p t n s) :
    (∀ span, Wide t span → s.keys.toList.filter (fun x => x.1 = span) =
      if (bestFom t s.chart span.1 span.2).isReachable then
        [(span, bestFom t s.chart span.1 span.2)] else []) ∧
    (∀ x ∈ s.keys.toList, Wide t x.1 ∧ t.limits.isOpen x.1.1 x.1.2 = true) ∧
    ∀ k fom, s.top? = some (k, fom) →
      (k, fom) ∈ s.keys.toList ∧
      (∀ x ∈ s.keys.toList, x.1 ≠ k → precedes (k, fom) x = true) ∧
      (∃ e ∈ improvingEdges t s.chart k.1 k.2, t.merit.score e s.chart = fom) ∧
      ∀ start stop id l r mid x, Joins t s.chart start stop id l r mid x →
        stop ≤ t.sentence.size → t.limits.isOpen start stop = true →
        t.limits.allows t.grammar start stop (t.grammar.production id).parent = true →
        s.chart.accepts (Edge.binary t.grammar id start mid stop x) = true →
        (t.merit.score (Edge.binary t.grammar id start mid stop x) s.chart).improves fom =
          false := by
  have hg := wellFormed_of_build hbuild
  have hkeyed := hafter.keyed hg (keyRule_current hmerit p.maxChain)
  have hordered := hkeyed.toOrderly
  refine ⟨fun span hwide => ?_, fun x hx => hordered.wide_of_mem hx, fun k fom htop => ?_⟩
  · rw [filter_toList, hkeyed.keys span hwide, keyOf?]
    split <;> rfl
  · have hkey := (State.top?_eq_some htop).1
    have hfom : keyOf? t s.chart k = some fom :=
      (hkeyed.keys k (hordered.wide k fom hkey).1).symm.trans hkey
    refine ⟨Std.TreeMap.mem_toList_iff_getElem?_eq_some.2 hkey,
      fun x hx hne => hordered.precedes_of_mem htop hx hne, exists_of_keyOf? hfom, ?_⟩
    intro start stop id l r mid x hjoins hstop hopen hallows haccepts
    obtain ⟨hlo, hhi⟩ := Limits.splits_inside hjoins.split
    have hwide : Wide t (start, stop) := ⟨by dsimp only; omega, hstop⟩
    refine hkeyed.figure_le_top htop hwide hopen (mem_improvingEdges.2 ⟨?_, haccepts⟩)
    exact (mem_binaryEdges hg (hordered.sound hg) hstop).2
      ⟨id, l, r, mid, x, hjoins, hallows, rfl⟩

/-- After the seeding of two words, the whole sentence has the key of its one edge. -/
theorem schedule_spec_circular :
    After (SpanFirst.mk 2 0 1) circularTask 0 (seeded (SpanFirst.mk 2 0 1) circularTask) ∧
    (seeded (SpanFirst.mk 2 0 1) circularTask).keys.toList.filter (fun x => x.1 = (0, 2)) =
      [((0, 2), .ofWholeUnits (-9))] := by
  have hafter : After (SpanFirst.mk 2 0 1) circularTask 0
      (seeded (SpanFirst.mk 2 0 1) circularTask) := .first
  obtain ⟨hentries, -⟩ := schedule_spec (t := circularTask) circularDraft_builds
    (fun _ _ _ => rfl) hafter
  have hbest : bestFom circularTask (seeded (SpanFirst.mk 2 0 1) circularTask).chart 0 2 =
      .ofWholeUnits (-9) := by decide +kernel
  have hkey := hentries (0, 2) ⟨by decide, by decide +kernel⟩
  dsimp only at hkey
  rw [hbest] at hkey
  exact ⟨hafter, hkey⟩

end SpanFirst
end BestParse
