import BestParse.Proofs.Chart.Reading
import BestParse.Proofs.BottomUp.Log

/-!
# The trees of bottom-up search

Bottom-up search follows a course of improving commits (`improving_parse`), so its chart is
linked.  The chart is exact besides.  No production scores more over its children than the target
of the edge holds, whatever the signs of the log-probabilities, so every tree read from it
has the score of the root (`Exact.scoreOver?_le`).
-/

namespace BestParse

namespace Chart

/-- In an exact chart no production overtakes the target of its edge. -/
theorem Exact.scoreOver?_le {t : Task} {chain : Nat} {c : Chart} {e : Edge}
    (h : c.Exact t chain) (hg : t.grammar.WellFormed) (he : e.Licensed t chain) {x : Score}
    (hx : e.scoreOver? t.grammar c = some x) : x.rank ≤ (c.scoreAt e.target).rank := by
  obtain ⟨D, hD, htarget, hscore⟩ := h.toSound.attains.exists_derivation hg he hx
  have hdominates := h.dominates D hD x hscore
  rw [htarget] at hdominates
  exact hdominates

/-- Nor does any overtake its edge, once the edge is stored. -/
theorem Exact.scoreOver?_le_inside {t : Task} {chain : Nat} {c : Chart} {e : Edge}
    (h : c.Exact t chain) (hlinked : c.Linked t chain) (hg : t.grammar.WellFormed) {τ : Target}
    (hτ : c.HasTarget τ) (he : (c.layerAt τ).edge = some e) {x : Score}
    (hx : e.scoreOver? t.grammar c = some x) : x.rank ≤ e.inside.rank := by
  rw [hlinked.inside_eq τ e hτ he, ← hlinked.target_eq τ e hτ he]
  exact h.scoreOver?_le hg (hlinked.licensed τ e hτ he) hx

end Chart

namespace BottomUp

open Chart

variable {t : Task}

/-- Every tree of bottom-up search has the score of the root. -/
theorem tree_attains {d : Draft} (hbuild : d.build = .ok t.grammar) {words : Array String}
    (hsentence : t.sentence = .ofWords t.grammar words) (b : BottomUp)
    (hcomplete : (b.parse t).1.chart.isComplete t.grammar = true) :
    ∃ tree x, (b.parse t).1.chart.tree? t.grammar t.sentence = some tree ∧
      tree.score t.grammar = some x ∧ x.Agrees ((b.parse t).1.chart.rootInside t.grammar) := by
  have hg := wellFormed_of_build hbuild
  have hcourse := improving_parse hg b (t := t)
  have hexact := b.exact_parse hg (t := t)
  obtain ⟨hlinked, -⟩ := hcourse.linked hg
  have hsettled : (b.parse t).1.chart.SettledOn t.grammar fun _ => True := by
    refine ⟨fun τ e hτ _ hedge => hcourse.modest hg hτ hedge, fun τ e x hτ _ hedge hx => ?_,
      fun _ _ _ _ _ _ _ => trivial⟩
    exact hexact.scoreOver?_le_inside hlinked hg hτ hedge hx
  exact hlinked.tree_attains hbuild hsentence hcomplete hexact.toSound hsettled trivial

end BottomUp
end BestParse
