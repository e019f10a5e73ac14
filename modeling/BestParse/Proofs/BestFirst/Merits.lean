import BestParse.Proofs.Chart.Records
import BestParse.Proofs.BestFirst.Ghosts

/-!
# Slots under figures of merit

With the rule that compares figures of merit an edge may be committed that scores less than
what it replaces.  The layer then goes down, and its slot does not: a slot keeps the best
score it ever had, which may no longer be that of any of its layers
(`slot_outlives_its_edge`).

What remains is true in every state of a search, whatever the figure of merit
(`heuristic_slots_bound`).  The edge of a slot is that of its best layer, with the score and
the figure of merit recorded there; a slot scores at least what its layers score; and from one
turn to the next no slot loses score and no layer loses figure of merit.
-/

namespace BestParse
namespace BestFirst

open Chart

variable {t : Task} {b : BestFirst} {s s' : State}

/-- A turn leaves the chart as it is, or stores an edge that the rule accepts. -/
theorem Reached.chart_next (hg : t.grammar.WellFormed) (h : Reached b t s)
    (hstep : b.step t s = .next s') :
    s'.chart = s.chart ∨ ∃ e, s.chart.HasTarget e.target ∧ b.rule.accepts s.chart e = true ∧
      s'.chart = s.chart.store t.grammar e := by
  obtain ⟨⟨pending, slots, hregular, -⟩, -⟩ := h.steady hg
  obtain ⟨-, e, htop, hmoves⟩ := step_next hstep
  have htarget := hregular.queued e (List.mem_of_mem_head? htop)
  rcases hmoves.chart_cases with ⟨-, hchart⟩ | ⟨haccepts, hchart⟩
  · exact Or.inl hchart
  · exact Or.inr ⟨e, htarget, haccepts, hchart⟩

/-- The chart of every state is a record of numbers. -/
theorem Reached.numbered (hg : t.grammar.WellFormed) (h : Reached b t s) :
    Committed t.grammar t.sentence.size b.maxChain (fun _ e => e.inside ≠ .nan) s.chart :=
  Course.numbered (h.steady hg).2 hg

/-- No slot loses score in a turn. -/
theorem Reached.bestAt_le_next (hg : t.grammar.WellFormed) (h : Reached b t s)
    (hstep : b.step t s = .next s') {x : Slot} (hx : s.chart.HasSlot x) :
    (s.chart.bestAt x).isAtMost (s'.chart.bestAt x) = true := by
  have hbefore := h.numbered hg
  have hafter := (h.next hstep).numbered hg
  have hx' : s'.chart.HasSlot x := hafter.hasSlot_iff.2 (hbefore.hasSlot_iff.1 hx)
  refine Score.isAtMost_iff.2 ⟨hbefore.bestAt_ne_nan hx, hafter.bestAt_ne_nan hx', ?_⟩
  rcases h.chart_next hg hstep with heq | ⟨e, htarget, -, heq⟩
  · exact Int.le_of_eq (by rw [heq])
  · rw [heq]
    exact hbefore.bestAt_le_store htarget hx

/-- With the rule that compares figures of merit, no layer loses figure of merit in a turn. -/
theorem Reached.fom_next (hg : t.grammar.WellFormed) (hrule : b.rule = .heuristic)
    (h : Reached b t s) (hstep : b.step t s = .next s') {τ : Target} (hτ : s.chart.HasTarget τ) :
    (s.chart.layerAt τ).fom.improves (s'.chart.layerAt τ).fom = false := by
  rcases h.chart_next hg hstep with heq | ⟨e, htarget, haccepts, heq⟩
  · rw [heq]
    exact Score.not_improves_self _
  · rw [heq, layerAt_store (h.numbered hg).shaped.sized htarget hτ]
    rw [hrule] at haccepts
    split
    · next hτe =>
      subst hτe
      exact Score.not_improves_of_improves haccepts
    · exact Score.not_improves_self _

/-- In every state of a search that compares figures of merit, the edge of a populated slot is
that of its best layer, and the slot scores at least what its layers score.  In a turn no slot
loses score, and no layer loses figure of merit. -/
theorem heuristic_slots_bound {d : Draft} {t : Task} (hbuild : d.build = .ok t.grammar)
    {b : BestFirst} (hrule : b.rule = .heuristic) {s : State} (h : Reached b t s) :
    (∀ start stop nt, IsSpan t.sentence.size start stop → nt < t.grammar.numNonterminals →
      s.chart.isPopulated start stop nt = true →
      (∃ e, s.chart.edge start stop nt = some e ∧
        e.target = ⟨⟨start, stop, nt⟩, s.chart.unaryDepth start stop nt⟩ ∧
        e.inside = s.chart.layerInside start stop nt (s.chart.unaryDepth start stop nt) ∧
        e.fom = s.chart.fom start stop nt) ∧
      ∀ depth, depth ≤ b.maxChain →
        (s.chart.layerInside start stop nt depth).isAtMost (s.chart.inside start stop nt) =
          true) ∧
    ∀ s', b.step t s = .next s' →
      (∀ start stop nt, IsSpan t.sentence.size start stop → nt < t.grammar.numNonterminals →
        (s.chart.inside start stop nt).isAtMost (s'.chart.inside start stop nt) = true) ∧
      ∀ start stop nt depth, IsSpan t.sentence.size start stop →
        nt < t.grammar.numNonterminals → depth ≤ b.maxChain →
        (s.chart.layerFom start stop nt depth).improves (s'.chart.layerFom start stop nt depth) =
          false := by
  have hg := wellFormed_of_build hbuild
  have hcommitted := h.numbered hg
  constructor
  · intro start stop nt hspan hnt hpopulated
    have hslot : s.chart.HasSlot ⟨start, stop, nt⟩ := hcommitted.hasSlot_iff.2 ⟨hspan, hnt⟩
    have htop : s.chart.HasTarget (s.chart.topOf ⟨start, stop, nt⟩) :=
      ⟨hslot, hcommitted.shaped.depth_le _ hslot⟩
    obtain ⟨e, he⟩ := Option.isSome_iff_exists.1 hpopulated
    refine ⟨⟨e, he, hcommitted.records.of_edge htop he⟩, fun depth hdepth => ?_⟩
    have htarget : s.chart.HasTarget ⟨⟨start, stop, nt⟩, depth⟩ :=
      hcommitted.hasTarget_iff.2 ⟨⟨hspan, hnt⟩, hdepth⟩
    rw [layerInside_eq, inside_eq, Score.isAtMost_iff]
    exact ⟨hcommitted.scoreAt_ne_nan htarget, hcommitted.bestAt_ne_nan hslot,
      hcommitted.scoreAt_le_bestAt htarget⟩
  · intro s' hstep
    constructor
    · intro start stop nt hspan hnt
      rw [inside_eq, inside_eq]
      exact h.bestAt_le_next hg hstep (hcommitted.hasSlot_iff.2 ⟨hspan, hnt⟩)
    · intro start stop nt depth hspan hnt hdepth
      exact h.fom_next hg hrule hstep (τ := ⟨⟨start, stop, nt⟩, depth⟩)
        (hcommitted.hasTarget_iff.2 ⟨⟨hspan, hnt⟩, hdepth⟩)

/-! ## A slot that outlives its edge -/

/-- A draft with two productions for the same two words, the better one without a unary
production below it. -/
def rivalDraft : Draft where
  start := some "S"
  rules := #[.binary "S" "X" "X" .certain, .lexical "A" "a" .certain, .lexical "C" "c" .certain,
    .lexical "F" "c" .certain, .binary "X" "A" "C" (.ofRatio true 1 1),
    .unary "E" "F" (.ofRatio true 1 2), .binary "X" "A" "E" (.ofRatio true 5 1)]

/-- The grammar of that draft. -/
def rivalGrammar : Grammar := rivalDraft.build.toOption.get (by decide +kernel)

/-- Two words, with the worst edges first. -/
def worstFirst : Task where
  grammar := rivalGrammar
  sentence := .ofWords rivalGrammar #["a", "c"]
  merit := { score := fun e _ => .ofWholeUnits (-e.inside.rank) }

/-- The search that compares figures of merit. -/
def byMerit : BestFirst := .new .scan .heuristic .stable

/-- The state before the third turn, in which both rivals have met. -/
def beforeThird : State :=
  byMerit.run worstFirst 1
    (byMerit.run worstFirst 1 ((byMerit.start worstFirst).seed worstFirst false))

/-- A turn that does not end the search is a run of one turn. -/
theorem step_eq_run (hgoes : (b.step t s matches .next _) = true) :
    b.step t s = .next (b.run t 1 s) := by
  cases hstep : b.step t s with
  | next s' => simp [run, hstep]
  | halt s' =>
      rw [hstep] at hgoes
      cases hgoes

theorem reached_beforeThird : Reached byMerit worstFirst beforeThird :=
  ((Reached.seeded (b := byMerit)).next (step_eq_run (by decide +kernel))).next
    (step_eq_run (by decide +kernel))

/-- In the third turn the worse rival is committed; the slot keeps its score and the layer gains
figure of merit. -/
theorem heuristic_slots_bound_rival :
    ∃ s', byMerit.step worstFirst beforeThird = .next s' ∧
      (Score.ofRatio true 1 1).isAtMost (s'.chart.inside 0 2 1) = true ∧
      (s'.chart.layerFom 0 2 1 0).improves (beforeThird.chart.layerFom 0 2 1 0) = true ∧
      (beforeThird.chart.layerFom 0 2 1 0).improves (s'.chart.layerFom 0 2 1 0) = false := by
  have hstep : byMerit.step worstFirst beforeThird = _ := step_eq_run (by decide +kernel)
  have hscore : beforeThird.chart.inside 0 2 1 = .ofRatio true 1 1 := by decide +kernel
  obtain ⟨hslots, hfoms⟩ := (heuristic_slots_bound (t := worstFirst) (Draft.build_eq_ok _)
    (rfl : byMerit.rule = .heuristic) reached_beforeThird).2 _ hstep
  have hslot := hslots 0 2 1 (by decide +kernel) (by decide +kernel)
  rw [hscore] at hslot
  exact ⟨_, hstep, hslot, by decide +kernel,
    hfoms 0 2 1 0 (by decide +kernel) (by decide +kernel) (Nat.zero_le _)⟩

/-- After that turn the slot scores one below zero, and the edge of its best layer five and a
half below zero; the layer had the score of the slot before. -/
theorem slot_outlives_its_edge :
    ∃ s', Reached byMerit worstFirst s' ∧
      byMerit.step worstFirst beforeThird = .next s' ∧
      s'.chart.isPopulated 0 2 1 = true ∧
      s'.chart.inside 0 2 1 = .ofRatio true 1 1 ∧
      (s'.chart.edge 0 2 1).map Edge.inside = some (.ofRatio true 11 2) ∧
      s'.chart.layerInside 0 2 1 (s'.chart.unaryDepth 0 2 1) = .ofRatio true 11 2 ∧
      (∀ depth, depth ≤ byMerit.maxChain →
        s'.chart.layerInside 0 2 1 depth ≠ s'.chart.inside 0 2 1) ∧
      (beforeThird.chart.layerInside 0 2 1 0).improves (s'.chart.layerInside 0 2 1 0) = true := by
  have hstep : byMerit.step worstFirst beforeThird = _ := step_eq_run (by decide +kernel)
  refine ⟨_, reached_beforeThird.next hstep, hstep, by decide +kernel, by decide +kernel,
    by decide +kernel, by decide +kernel, ?_, by decide +kernel⟩
  decide +kernel

end BestFirst
end BestParse
