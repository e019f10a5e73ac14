import BestParse.Proofs.BestFirst.Root
import BestParse.Proofs.SpanFirst.Ratings

/-!
# The root of a settled search

A closed state is one of best-first search over edges in which every improving edge waits
(`Closed.fullyCovered`).  So a derivation that the chart does not dominate is no better than
some improving edge, by the argument for best-first search.

An improving edge is no better than the key of its span, and the search is settled when no
key is above the root.  So the root is then as good as any derivation of it
(`Tidy.bounds_root`), although improving edges may be left and the rest of the chart need not
be exact.
-/

namespace BestParse
namespace SpanFirst

open Chart
open BestFirst (RatesInside FullyCovered)
open BottomUp (widerSpans mem_widerSpans)

variable {t : Task} {chain : Nat} {c : Chart} {e : Edge} {s : State} {p : SpanFirst}

/-! ## Improving edges as a queue -/

/-- The improving edges over all open spans. -/
def agenda (t : Task) (c : Chart) : List Edge :=
  (widerSpans t.sentence.size).flatMap fun span =>
    if t.limits.isOpen span.1 span.2 then improvingEdges t c span.1 span.2 else []

theorem mem_agenda :
    e ∈ agenda t c ↔ ∃ span, Wide t span ∧ t.limits.isOpen span.1 span.2 = true ∧
      e ∈ improvingEdges t c span.1 span.2 := by
  unfold agenda
  rw [List.mem_flatMap]
  constructor
  · rintro ⟨span, hspan, he⟩
    split at he
    · next hopen => exact ⟨span, mem_widerSpans.1 hspan, hopen, he⟩
    · cases he
  · rintro ⟨span, hwide, hopen, he⟩
    refine ⟨span, mem_widerSpans.2 hwide, ?_⟩
    rw [if_pos hopen]
    exact he

/-- The search as a best-first search in which every improving edge waits. -/
def asBestFirst (t : Task) (s : State) : BestFirst.State where
  chart := s.chart
  frontier := .scan
  queue := .stable ⟨agenda t s.chart⟩

theorem Closed.fullyCovered (h : Closed t chain t.sentence.size s) (hg : t.grammar.WellFormed) :
    FullyCovered .scores t chain (asBestFirst t s) where
  leaves id i hleaf hi := Or.inl (h.leaves id i hleaf hi _ rfl)
  unary τ hτ _ u hu := Or.inl (h.unary τ hτ u hu)
  binary place l r e hplace _ _ _ he := by
    have hsound := h.toOrderly.sound hg
    have hsupported := BestFirst.supported_edge? hsound.attains hg hplace he
    obtain ⟨hopen, hmid, hallows, l', r', x, hexp, hx, rfl⟩ := BestFirst.edge?_eq_some.1 he
    have hwide : Wide t (place.start, place.stop) :=
      ⟨by have := hplace.start_lt; have := hplace.mid_lt; dsimp only; omega, hplace.stop_le⟩
    by_cases hacc : s.chart.accepts
        (Edge.binary t.grammar place.production place.start place.mid place.stop x) = true
    · refine Or.inr ⟨_, mem_agenda.2 ⟨_, hwide, hopen, mem_improvingEdges.2 ⟨?_, hacc⟩⟩, rfl,
        Int.le_refl _⟩
      exact (mem_binaryEdges hg hsound hplace.stop_le).2
        ⟨_, l', r', _, x, ⟨hplace.production_lt, hexp, hmid, hx⟩, hallows, rfl⟩
    · exact Or.inl (rank_le_of_declined hsound hg hsupported hacc)

/-! ## Settled searches -/

/-- When the search is over, no improving edge is better than the root. -/
theorem Tidy.agenda_le_root (h : Tidy t chain s) (hg : t.grammar.WellFormed)
    (hover : s.isSettled t = true ∨ s.top? = none) :
    ∀ f ∈ agenda t s.chart, f.inside.rank ≤ (s.chart.bestAt t.root).rank := by
  intro f hf
  obtain ⟨span, hwide, hopen, hf⟩ := mem_agenda.1 hf
  have htells := h.keys span hwide
  have hsound := h.toOrderly.sound hg
  cases hkey : s.keys[span]? with
  | none =>
      rw [hkey] at htells
      exact absurd hf (htells hopen f)
  | some fom =>
      rw [hkey] at htells
      cases htop : s.top? with
      | none => cases hkey.symm.trans (State.top?_eq_none htop span)
      | some best =>
          obtain ⟨k, greatest⟩ := best
          have hsettled := hover.resolve_right (by rw [htop]; exact nofun)
          unfold State.isSettled at hsettled
          rw [htop, Bool.and_eq_true] at hsettled
          have hroot : s.chart.HasSlot t.root := hsound.isFor.hasSlot_root hg (by
            have := hwide.1
            have := hwide.2
            omega)
          have hfom : s.chart.fom 0 t.sentence.size t.grammar.start = s.chart.bestAt t.root := by
            rw [fom_eq, hsound.coherent.best_eq _ hroot]
            exact h.rated _ (hsound.coherent.hasTarget_topOf hroot)
          have hatmost : greatest.isAtMost (s.chart.fom 0 s.chart.size t.grammar.start) = true :=
            hsettled.2
          rw [hsound.isFor.size_eq, hfom] at hatmost
          calc f.inside.rank ≤ fom.rank := htells.2 f hf
            _ ≤ greatest.rank :=
              rank_le_of_not_precedes ((State.top?_eq_some htop).2 span fom hkey)
            _ ≤ _ := (Score.isAtMost_iff.1 hatmost).2.2

end SpanFirst
end BestParse
