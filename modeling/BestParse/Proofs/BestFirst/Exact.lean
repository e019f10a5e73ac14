import BestParse.Proofs.BestFirst.Honest
import BestParse.Proofs.BottomUp.Viterbi

/-!
# Best-first search to exhaustion

When nothing waits any more, what the scores give in one more step is stored, so by
induction every derivation is dominated and the chart is exact (`exact_of_exhausted`).
The order in which edges were taken does not matter, and neither does the figure of merit
that chose it.  So a search to exhaustion ends with the scores of bottom-up search.

A best-first search is faulty only when bottom-up search is, or when the figure of merit
does not cover every edge (`faulty_parse`).
-/

namespace BestParse
namespace BestFirst

open Chart

variable {t : Task} {chain : Nat} {b : BestFirst} {s : State}

/-! ## Derivations over dominated children -/

namespace FullyCovered

variable (h : FullyCovered .scores t chain s) (hs : s.chart.Sound t chain) (hg : t.grammar.WellFormed)

include h hs hg

/-- The score of a unary derivation over a dominated child is met. -/
theorem meets_unary {id : ProductionId} {D : Derivation}
    (hD : (Derivation.unary id D).Obeys t chain) (hdom : s.chart.Dominates t D) {x : Score}
    (hx : (Derivation.unary id D).score t.grammar = some x) :
    Meets s.chart s.queue.toList ((Derivation.unary id D).target t.grammar) x := by
  obtain ⟨x', hx', hle⟩ := hs.extend_of_dominates hg hD hdom hx
  obtain ⟨hchild, hdepth, hid, hexp, hopen, hallows⟩ := hD
  have hmade : Edge.unary t.grammar id D.start D.stop (D.depth + 1) x' ∈
      unaryCandidates t s.chart (D.target t.grammar) := (mem_unaryCandidates hg).2
    ⟨hs.isFor.maxChain_eq ▸ hdepth, hopen, id, x', hid, hexp, hallows, hx', rfl⟩
  have hmeets := Covered.unary h _ (hs.isFor.hasTarget hg hchild) not_false _ hmade
  exact hmeets.mono hle

/-- The score of a binary derivation over dominated children is met. -/
theorem meets_binary {id : ProductionId} {L R : Derivation}
    (hD : (Derivation.binary id L R).Obeys t chain) (hdoml : s.chart.Dominates t L)
    (hdomr : s.chart.Dominates t R) {x : Score}
    (hx : (Derivation.binary id L R).score t.grammar = some x) :
    Meets s.chart s.queue.toList ((Derivation.binary id L R).target t.grammar) x := by
  obtain ⟨x', hx', hle⟩ := hs.combine_of_dominates hg hD hdoml hdomr hx
  obtain ⟨hL, hR, hmeet, hid, hexp, hopen, hmid, hallows⟩ := hD
  obtain ⟨hstart, -⟩ := Derivation.isSpan_of_obeys hL
  obtain ⟨hmidr, hstop⟩ := Derivation.isSpan_of_obeys hR
  rw [← hmeet] at hmidr
  rw [Derivation.slot, Derivation.slot, ← hmeet] at hx'
  have hmade := (edge?_eq_some (c := s.chart) (p := ⟨id, L.start, L.stop, R.stop⟩)).2
    ⟨hopen, hmid, hallows, _, _, x', hexp, hx', rfl⟩
  have hmeets := Covered.binary h ⟨id, L.start, L.stop, R.stop⟩ _ _ _
    ⟨hid, hstart, hmidr, hstop⟩ hexp not_false not_false hmade
  exact hmeets.mono hle

/-- A chart for which no edge waits is exact. -/
theorem exact_of_exhausted (hqueue : s.queue.toList = []) : s.chart.Exact t chain := by
  refine { hs with dominates := fun D hD => ?_ }
  induction D with
  | leaf id i => exact h.dominates_leaf hD hD.1
  | unary id D ih =>
      intro x hx
      have hmeets := h.meets_unary hs hg hD (ih hD.1) hx
      rw [hqueue] at hmeets
      exact hmeets.of_empty
  | binary id L R ihl ihr =>
      intro x hx
      have hmeets := h.meets_binary hs hg hD (ihl hD.1) (ihr hD.2.1) hx
      rw [hqueue] at hmeets
      exact hmeets.of_empty

end FullyCovered

/-! ## Searches to exhaustion -/

theorem phase_next {s' : State} (huntil : b.untilExhausted = true) (hstep : b.step t s = .next s') :
    s'.phase = .searching := by
  obtain ⟨-, e, -, hmoves⟩ := step_next hstep
  cases hmoves with
  | skip declined chart_eq frontier_eq queue_eq phase_eq faulty_eq => exact phase_eq
  | complete accepted completes stops chart_eq frontier_eq queue_eq phase_eq faulty_eq =>
      cases huntil.symm.trans stops
  | expand before state_eq accepted continues chart_eq frontier_eq queue_eq phase_eq faulty_eq =>
      rw [state_eq, State.phase_expand]
      exact phase_eq

/-- A search to exhaustion fills an exact chart. -/
theorem exact_parse (hg : t.grammar.WellFormed) (hrule : b.rule = .inside ∨ RatesInside t)
    (hkind : b.queue.kind = .stable ∨ RatesInside t) (huntil : b.untilExhausted = true)
    (hpops : b.maxPops = 0) : (b.parse t).1.chart.Exact t b.maxChain := by
  obtain ⟨s, ⟨htrack, hphase⟩, hchart, -, hended⟩ := parse_ends hg b
    (I := fun s => OnTrack .scores (Honest t b.maxChain) t b.maxChain s ∧ s.phase = .searching)
    ⟨honest_seed hg hrule hkind, by simp [State.seed, huntil]⟩ fun s s' hsteady hI hstep =>
      ⟨hI.1.next (honest_discipline hg hrule) hg hsteady hstep, phase_next huntil hstep⟩
  rw [hchart]
  exact FullyCovered.exact_of_exhausted (htrack.covered hphase) htrack.good.sound hg
    ((hended hpops).resolve_left fun hdone => hdone hphase)

/-- A best-first search is faulty only where a bottom-up search is, or where the figure of
merit does not cover an edge. -/
theorem faulty_parse (hg : t.grammar.WellFormed) (b' : BottomUp)
    (hfaulty : (b.parse t).1.faulty = true) :
    (b'.parse t).1.faulty = true ∨ ∃ e, t.merit.covers e = false :=
  (faults_of_faulty_parse hg hfaulty).imp_left (b'.faulty_parse_iff t).2

/-- Best-first search to exhaustion ends with the scores of bottom-up search, whatever the
figure of merit, if it keeps every edge and compares scores. -/
theorem exhausted_agrees {d : Draft} {t : Task} (hbuild : d.build = .ok t.grammar) (b : BestFirst)
    (hrule : b.rule = .inside) (hkind : b.queue.kind = .stable) (huntil : b.untilExhausted = true)
    (hpops : b.maxPops = 0) (b' : BottomUp) (hchain : b.maxChain = b'.maxChain) :
    (∀ start stop nt depth, IsSpan t.sentence.size start stop → nt < t.grammar.numNonterminals →
      depth ≤ b.maxChain →
      ((b.parse t).1.chart.layerInside start stop nt depth).Agrees
        ((b'.parse t).1.chart.layerInside start stop nt depth)) ∧
    (∀ start stop nt, IsSpan t.sentence.size start stop → nt < t.grammar.numNonterminals →
      ((b.parse t).1.chart.inside start stop nt).Agrees
        ((b'.parse t).1.chart.inside start stop nt)) ∧
    ((b.parse t).1.faulty = true →
      (b'.parse t).1.faulty = true ∨ ∃ e, t.merit.covers e = false) := by
  have hg := wellFormed_of_build hbuild
  have hexact := exact_parse hg (Or.inl hrule) (Or.inl hkind) huntil hpops
  have hexact' := b'.exact_parse hg
  rw [← hchain] at hexact'
  refine ⟨?_, ?_, faulty_parse hg b'⟩
  · intro start stop nt depth hspan hnt hdepth
    exact hexact.agrees_layerInside hexact' hspan hnt hdepth
  · intro start stop nt hspan hnt
    exact hexact.agrees_inside hexact' hg hspan hnt

/-- Also a figure of merit that is never a number leads to the score of a unary edge over the
root. -/
theorem exhausted_agrees_circular :
    (({ BestFirst.new .ghost .inside .stable with maxChain := 2, untilExhausted := true }.parse
      { circularTask with merit := { score := fun _ _ => .nan } }).1.chart.layerInside
        0 2 1 1).Agrees (.ofWholeUnits (-9)) := by
  have hvalue : ((BottomUp.mk .productions 2 {}).parse
      { circularTask with merit := { score := fun _ _ => .nan } }).1.chart.layerInside 0 2 1 1 =
        .ofWholeUnits (-9) := by decide +kernel
  have hagree := exhausted_agrees
    (t := { circularTask with merit := { score := fun _ _ => .nan } }) circularDraft_builds
    { BestFirst.new .ghost .inside .stable with maxChain := 2, untilExhausted := true }
    rfl rfl rfl rfl (.mk .productions 2 {}) rfl
  have hlayer := hagree.1 0 2 1 1 (by decide +kernel) (by decide +kernel) (by decide)
  rw [hvalue] at hlayer
  exact hlayer

end BestFirst
end BestParse
