import BestParse.Proofs.BottomUp.Exact

/-!
# The scores bottom-up search finds

The chart of a bottom-up search holds the Viterbi scores: in every layer the best
score among the derivations of that layer, and in every slot the best of its layers.
Since this determines every number of the chart, the four discoveries agree on all of
them.

A report is faulty when the split points of some open span leave machine words.  That
depends on the limits alone (`faulty_run`).
-/

namespace BestParse
namespace BottomUp

open Chart

variable {t : Task} {chain : Nat} {discovery : Discovery}

/-! ## Faults -/

theorem faulty_finishCell (discovery : Discovery) (s : State) (start stop : Nat) :
    (s.finishCell discovery start stop).faulty = s.faulty := by
  unfold State.finishCell
  split <;> rfl

theorem faulty_fillSpan (t : Task) (discovery : Discovery) (s : State) (start stop : Nat) :
    (s.fillSpan t discovery start stop).faulty =
      (s.faulty || (t.limits.isOpen start stop && !t.limits.splitsFit start stop)) := by
  unfold State.fillSpan
  rw [faulty_finishCell]
  cases t.limits.isOpen start stop with
  | false => exact (Bool.or_false _).symm
  | true => rfl

theorem faulty_words (t : Task) (discovery : Discovery) :
    ∀ (positions : List Nat) (s : State),
      (positions.foldl (fun s i => s.fillWord t discovery i) s).faulty = s.faulty
  | [], _ => rfl
  | i :: positions, s => by
      refine (faulty_words t discovery positions (s.fillWord t discovery i)).trans ?_
      exact faulty_finishCell discovery _ i (i + 1)

theorem faulty_spans (t : Task) (discovery : Discovery) :
    ∀ (spans : List (Nat × Nat)) (s : State),
      (spans.foldl (fun s (start, stop) => s.fillSpan t discovery start stop) s).faulty =
        (s.faulty || spans.any fun (start, stop) =>
          t.limits.isOpen start stop && !t.limits.splitsFit start stop)
  | [], s => (Bool.or_false s.faulty).symm
  | (start, stop) :: spans, s => by
      refine (faulty_spans t discovery spans (s.fillSpan t discovery start stop)).trans ?_
      rw [faulty_fillSpan, List.any_cons, Bool.or_assoc]

theorem faulty_run (t : Task) (chain : Nat) (discovery : Discovery) :
    ((State.start t chain).run t discovery).faulty =
      (widerSpans t.sentence.size).any fun (start, stop) =>
        t.limits.isOpen start stop && !t.limits.splitsFit start stop := by
  refine (faulty_spans t discovery _ _).trans ?_
  rw [faulty_words]
  exact Bool.false_or _

theorem mem_widerSpans {n start stop : Nat} :
    (start, stop) ∈ widerSpans n ↔ start + 2 ≤ stop ∧ stop ≤ n := by
  simp only [widerSpans, List.mem_flatMap, List.mem_range'_1, List.mem_map, List.mem_range,
    Prod.mk.injEq]
  constructor
  · rintro ⟨width, hwidth, first, hfirst, rfl, rfl⟩
    omega
  · rintro ⟨hlt, hle⟩
    exact ⟨stop - start, by omega, start, by omega, rfl, by omega⟩

/-- A search is faulty when the split points of some open span do not fit. -/
theorem faulty_parse_iff (b : BottomUp) (t : Task) :
    (b.parse t).1.faulty = true ↔
      ∃ start stop, start + 2 ≤ stop ∧ stop ≤ t.sentence.size ∧
        t.limits.isOpen start stop = true ∧ t.limits.splitsFit start stop = false := by
  change ((State.start t b.maxChain).run t b.discovery).faulty = true ↔ _
  rw [faulty_run, List.any_eq_true]
  constructor
  · rintro ⟨⟨start, stop⟩, hmem, hfault⟩
    obtain ⟨hlt, hle⟩ := mem_widerSpans.1 hmem
    simp only [Bool.and_eq_true, Bool.not_eq_true'] at hfault
    exact ⟨start, stop, hlt, hle, hfault.1, hfault.2⟩
  · rintro ⟨start, stop, hlt, hle, hopen, hfit⟩
    refine ⟨(start, stop), mem_widerSpans.2 ⟨hlt, hle⟩, ?_⟩
    simp only [Bool.and_eq_true, Bool.not_eq_true']
    exact ⟨hopen, hfit⟩

/-! ## Viterbi scores -/

theorem exact_parse (b : BottomUp) (hg : t.grammar.WellFormed) :
    (b.parse t).1.chart.Exact t b.maxChain :=
  exact_run hg

/-- Bottom-up search finds the Viterbi scores: each layer holds the best score among the
derivations of its words, its nonterminal and its number of unary productions at the
root, and each slot the best of its layers. -/
theorem parse_viterbi {d : Draft} {t : Task} (hbuild : d.build = .ok t.grammar) (b : BottomUp) :
    (∀ start stop nt depth, IsSpan t.sentence.size start stop → nt < t.grammar.numNonterminals →
      depth ≤ b.maxChain →
      IsBestScore t.grammar
        (fun D => D.Obeys t b.maxChain ∧ D.positions = List.range' start (stop - start) ∧
          D.symbol t.grammar = nt ∧ D.depth = depth)
        ((b.parse t).1.chart.layerInside start stop nt depth)) ∧
    (∀ start stop nt, IsSpan t.sentence.size start stop → nt < t.grammar.numNonterminals →
      (∃ depth, depth ≤ b.maxChain ∧
        (b.parse t).1.chart.inside start stop nt =
          (b.parse t).1.chart.layerInside start stop nt depth) ∧
      ∀ depth, depth ≤ b.maxChain →
        ((b.parse t).1.chart.layerInside start stop nt depth).isAtMost
          ((b.parse t).1.chart.inside start stop nt) = true) ∧
    ((b.parse t).1.faulty = true ↔
      ∃ start stop, start + 2 ≤ stop ∧ stop ≤ t.sentence.size ∧
        t.limits.isOpen start stop = true ∧ t.limits.splitsFit start stop = false) := by
  have hg := wellFormed_of_build hbuild
  have hexact := exact_parse b hg
  refine ⟨?_, ?_, faulty_parse_iff b t⟩
  · intro start stop nt depth hspan hnt hdepth
    exact hexact.isBestScore_layerInside hg hspan hnt hdepth
  · intro start stop nt hspan hnt
    exact hexact.inside_eq_max hspan hnt

/-- With a circle of unary productions, the best derivation of two words that ends in a
binary production has nine units below zero. -/
theorem parse_viterbi_circular :
    IsBestScore circularTask.grammar
      (fun D => D.Obeys circularTask 2 ∧ D.positions = [0, 1] ∧
        D.symbol circularTask.grammar = 0 ∧ D.depth = 0)
      (.ofWholeUnits (-9)) := by
  have hvalue : ((BottomUp.mk .productions 2 {}).parse circularTask).1.chart.layerInside 0 2 0 0 =
      .ofWholeUnits (-9) := by decide +kernel
  have hbest := (parse_viterbi (t := circularTask) circularDraft_builds
    (.mk .productions 2 {})).1 0 2 0 0 (by decide +kernel) (by decide +kernel) (Nat.zero_le _)
  rw [hvalue] at hbest
  exact hbest

/-! ## Discoveries agree -/

/-- Two bottom-up searches with the same bound on unary productions end alike, whatever
their discoveries. -/
theorem discoveries_agree {d : Draft} {t : Task} (hbuild : d.build = .ok t.grammar)
    (b b' : BottomUp) (hchain : b.maxChain = b'.maxChain) :
    (b.parse t).1.outcome = (b'.parse t).1.outcome ∧
    (b.parse t).1.faulty = (b'.parse t).1.faulty ∧
    (∀ start stop, IsSpan t.sentence.size start stop →
      ((b.parse t).1.chart.populated start stop).Perm
        ((b'.parse t).1.chart.populated start stop)) ∧
    (∀ start stop nt depth, IsSpan t.sentence.size start stop → nt < t.grammar.numNonterminals →
      depth ≤ b.maxChain →
      ((b.parse t).1.chart.layerInside start stop nt depth).Agrees
        ((b'.parse t).1.chart.layerInside start stop nt depth)) ∧
    ∀ start stop nt, IsSpan t.sentence.size start stop → nt < t.grammar.numNonterminals →
      ((b.parse t).1.chart.inside start stop nt).Agrees
        ((b'.parse t).1.chart.inside start stop nt) := by
  have hg := wellFormed_of_build hbuild
  have hexact := exact_parse b hg
  have hexact' := exact_parse b' hg
  rw [← hchain] at hexact'
  refine ⟨hexact.outcome_eq hexact'.toSound hg (hexact.agrees_rootInside hexact'.toSound hg
    (hexact.bounds hg _) (hexact'.bounds hg _)), ?_, ?_, ?_, ?_⟩
  · exact (faulty_run t b.maxChain b.discovery).trans (faulty_run t b'.maxChain b'.discovery).symm
  · intro start stop hspan
    rw [← hexact.isFor.size_eq] at hspan
    exact hexact.populated_perm hexact' hg hspan
  · intro start stop nt depth hspan hnt hdepth
    exact hexact.agrees_layerInside hexact' hspan hnt hdepth
  · intro start stop nt hspan hnt
    exact hexact.agrees_inside hexact' hg hspan hnt

/-- The discovery by pairs finds the root that the discovery by productions finds, also
with a circle of unary productions. -/
theorem discoveries_agree_circular :
    (((BottomUp.mk .pairs 2 {}).parse circularTask).1.chart.inside 0 2 0).Agrees
      (.ofWholeUnits (-9)) ∧
    ((BottomUp.mk .pairs 2 {}).parse circularTask).1.outcome = .parsed := by
  have hvalue : ((BottomUp.mk .productions 2 {}).parse circularTask).1.chart.inside 0 2 0 =
      .ofWholeUnits (-9) := by decide +kernel
  have hparsed : ((BottomUp.mk .productions 2 {}).parse circularTask).1.outcome = .parsed := by
    decide +kernel
  have hagree := discoveries_agree (t := circularTask) circularDraft_builds (.mk .pairs 2 {})
    (.mk .productions 2 {}) rfl
  have hroot := hagree.2.2.2.2 0 2 0 (by decide +kernel) (by decide +kernel)
  rw [hvalue] at hroot
  exact ⟨hroot, hagree.1.trans hparsed⟩

end BottomUp
end BestParse
