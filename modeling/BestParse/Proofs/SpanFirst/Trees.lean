import BestParse.Proofs.BestFirst.Trees
import BestParse.Proofs.SpanFirst.Root

/-!
# The trees of a settled search

When span-first search is settled, improving edges may be left: a child may have been raised
after its parent's edge was made, and the parent was not visited again.  But such a parent
scores less than the root, since no improving edge is better than the root.

The tree of the root has no such parents.  When probabilities are at most one, a child scores
at least as much as its parent, so every layer that the tree is read from scores at least as
much as the root.  These layers are settled (`Tidy.settled`).
-/

namespace BestParse
namespace SpanFirst

open Chart
open BestFirst (RatesInside)

variable {t : Task} {chain : Nat} {s : State} {p : SpanFirst}

/-- What scores at least as much as the root is settled. -/
theorem Tidy.settled (h : Tidy t chain s) (hg : t.grammar.WellFormed)
    (hneg : t.grammar.Discounting) (hover : s.isSettled t = true ∨ s.top? = none) :
    s.chart.SettledOn t.grammar fun τ =>
      (s.chart.bestAt t.root).rank ≤ (s.chart.scoreAt τ).rank := by
  have hlinked := (Course.linked h.course hg).1
  have hsound := h.toOrderly.sound hg
  refine ⟨fun τ e hτ _ he => h.course.modest hg hτ he, fun τ e x hτ hregion he hx => ?_,
    fun τ e hτ hregion he σ hσ => ?_⟩
  · have hmeets := (h.fullyCovered hg).meets hg hsound (hlinked.licensed τ e hτ he) hx
    rw [hlinked.inside_eq τ e hτ he]
    rcases hmeets with hstored | ⟨f, hf, -, hle⟩
    · rw [hlinked.target_eq τ e hτ he] at hstored
      exact hstored
    · calc x.rank ≤ f.inside.rank := hle
        _ ≤ (s.chart.bestAt t.root).rank := h.agenda_le_root hg hover f hf
        _ ≤ _ := hregion
  · obtain ⟨x, hx, hmodest⟩ := h.course.modest hg hτ he
    calc (s.chart.bestAt t.root).rank ≤ (s.chart.scoreAt τ).rank := hregion
      _ = e.inside.rank := by rw [hlinked.inside_eq τ e hτ he]
      _ ≤ x.rank := hmodest
      _ ≤ _ := hsound.scoreOver?_le_below hneg hg (hlinked.licensed τ e hτ he) hx σ hσ

/-- The tree of span-first search by scores has the score of the root, whatever the bound on
the edges that a visit admits. -/
theorem tree_attains {d : Draft} (hbuild : d.build = .ok t.grammar) {words : Array String}
    (hsentence : t.sentence = .ofWords t.grammar words) (hneg : t.grammar.Discounting)
    (hrates : RatesInside t) (hvisits : p.maxVisits = 0)
    (hcomplete : (p.parse t).chart.isComplete t.grammar = true) :
    ∃ tree x, (p.parse t).chart.tree? t.grammar t.sentence = some tree ∧
      tree.score t.grammar = some x ∧ x.Agrees ((p.parse t).chart.rootInside t.grammar) := by
  have hg := wellFormed_of_build hbuild
  obtain ⟨s, htidy, hover, hchart, -, -⟩ := parse_settles (p := p) hg hrates hvisits
  rw [hchart] at hcomplete ⊢
  have hsound := htidy.toOrderly.sound hg
  refine (Course.linked htidy.course hg).1.tree_attains hbuild hsentence hcomplete hsound
    (htidy.settled hg hneg hover) ?_
  by_cases hsize : t.sentence.size = 0
  · rw [isComplete, hsound.isFor.size_eq, hsize] at hcomplete
    cases hcomplete
  · rw [hsound.coherent.best_eq _ (hsound.isFor.hasSlot_root hg hsize)]

end SpanFirst
end BestParse
