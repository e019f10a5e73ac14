import BestParse.Proofs.Chart.Reach
import BestParse.Proofs.SpanFirst.Root

/-!
# Span-first search loses no derivation

With an arbitrary figure of merit a key is no bound on scores, and a visit may drop improving
edges.  But as long as figures of merit are reachable, an open span that has an improving edge
has a key (`Marks`), so it is visited again.

When no span has a key, no improving edge is left anywhere and the chart is exact, whatever
the order of the visits.  When the search settles before that, the root is populated.
-/

namespace BestParse
namespace SpanFirst

open Chart

variable {t : Task} {chain : Nat} {s : State} {p : SpanFirst}

/-- A span has a key just when it is open and has an improving edge. -/
def Marks (t : Task) (c : Chart) (span : Nat × Nat) : Option Score → Prop
  | none => t.limits.isOpen span.1 span.2 = true → ∀ e, e ∉ improvingEdges t c span.1 span.2
  | some _ => ∃ e, e ∈ improvingEdges t c span.1 span.2

/-- When no span has a key, no improving edge is left and the chart is exact. -/
theorem Keyed.exact_of_exhausted (h : Keyed t chain (Marks t) s) (hg : t.grammar.WellFormed)
    (hnone : s.top? = none) : s.chart.Exact t chain := by
  have hagenda : agenda t s.chart = [] := by
    refine List.eq_nil_iff_forall_not_mem.2 fun e he => ?_
    obtain ⟨span, hwide, hopen, he⟩ := mem_agenda.1 he
    have hmarks := h.keys span hwide
    rw [State.top?_eq_none hnone span] at hmarks
    exact hmarks hopen e he
  exact BestFirst.FullyCovered.exact_of_exhausted (h.toClosed.fullyCovered hg)
    (h.toOrderly.sound hg) hg hagenda

end SpanFirst
end BestParse
