import BestParse.Proofs.SpanFirst.Visits

/-!
# Span-first search by scores

When edges are rated by their scores, the chart records scores as figures of merit throughout
(`Scored`), so the figure of the root can be compared with keys.  A state is *tidy* when it is
keyed besides, with keys that are the greatest scores over their spans.
-/

namespace BestParse
namespace SpanFirst

open Chart
open BestFirst (RatesInside Rated)

variable {t : Task} {chain : Nat} {e : Edge} {s s' : State} {p : SpanFirst}

/-- The edges that are stored and those that wait are rated by their scores. -/
structure Scored (s : State) : Prop where
  stored : Rated s.chart
  waiting : ∀ f ∈ s.waiting.entries, f.fom = f.inside

namespace Scored

/-- Edges rated by their scores are queued. -/
theorem queues (h : Scored s) {es : List Edge} (hes : ∀ f ∈ es, f.fom = f.inside)
    (hchart : s'.chart = s.chart) (hwaiting : s'.waiting = enqueue s.waiting es) : Scored s' := by
  refine ⟨hchart ▸ h.stored, fun f hf => ?_⟩
  rw [hwaiting, mem_enqueue] at hf
  exact hf.elim (h.waiting f) (hes f)

theorem rekeyAll (h : Scored s) (spans : List (Nat × Nat)) : Scored (s.rekeyAll t spans) := by
  obtain ⟨hchart, hwaiting, -, -⟩ := State.rekeyAll_eq t spans s
  exact ⟨hchart ▸ h.stored, hwaiting ▸ h.waiting⟩

section

variable (hg : t.grammar.WellFormed) (hrates : RatesInside t)

theorem fom_ratedUnaries (hrates : RatesInside t) {c : Chart} {target : Target}
    (he : e ∈ State.ratedUnaries t c target) : e.fom = e.inside := by
  obtain ⟨u, -, rfl⟩ := List.mem_map.1 he
  exact hrates u c

include hg hrates

theorem admits (h : Scored s) (hs : Orderly t chain s)
    (hhead : s.waiting.entries.head? = some e) (hadmits : State.Admits t s e s') : Scored s' := by
  cases hadmits with
  | skip declined chart_eq keys_eq waiting_eq faulty_eq =>
      refine ⟨chart_eq ▸ h.stored, fun f hf => ?_⟩
      rw [waiting_eq] at hf
      exact h.waiting f (List.mem_of_mem_tail hf)
  | commit before queues accepted chart_eq keys_eq waiting_eq faulty_eq =>
      have hbefore : Scored before := by
        refine ⟨?_, fun f hf => ?_⟩
        · rw [chart_eq]
          exact h.stored.store (hs.sound hg).coherent.sized (hs.hasTarget_head hg hhead)
            (h.waiting e (List.mem_of_mem_head? hhead))
        · rw [waiting_eq] at hf
          exact h.waiting f (List.mem_of_mem_tail hf)
      exact hbefore.queues (fun f hf => fom_ratedUnaries hrates hf) queues.chart_eq
        queues.waiting_eq

theorem drain (h : Scored s) (hs : Orderly t chain s) (maxLocal : Nat) :
    Scored (s.drain t maxLocal) :=
  (drain_induction hg maxLocal (I := Scored)
    (fun _ _ _ hs' h' hhead hadmits => h'.admits hg hrates hs' hhead hadmits) hs h).2.1

theorem seedWord (h : Scored s) (hs : Orderly t chain s) (maxLocal : Nat) {i : Nat}
    (hi : i < t.sentence.size) : Scored (s.seedWord t maxLocal i) := by
  obtain ⟨before, hchart, hkeys, hwaiting, hfaulty, hqueues⟩ := s.sow_eq t i
  have hbefore : Scored before := by
    refine ⟨?_, hwaiting ▸ h.waiting⟩
    rw [hchart, seed_eq]
    exact h.stored.seedAll (hs.sound hg) hg fun _ hid => supported_of_mem_lexicalWith hg hi hid
  have hafter : Scored (s.sow t i) := by
    refine hbefore.queues (fun f hf => ?_) hqueues.chart_eq hqueues.waiting_eq
    obtain ⟨target, -, hf⟩ := List.mem_flatMap.1 hf
    exact fom_ratedUnaries hrates hf
  rw [State.seedWord_eq]
  exact hafter.drain hg hrates (hs.sow hg hi) maxLocal

theorem words (h : Scored s) (hs : Orderly t chain s) (maxLocal : Nat) :
    ∀ n ≤ t.sentence.size, Scored ((List.range n).foldl (fun s i => s.seedWord t maxLocal i) s) :=
  fun n hn => (Loop.foldl_range (I := fun _ s => Scored s ∧ Orderly t chain s)
    (fun _ _ hi ⟨h, hs⟩ => ⟨h.seedWord hg hrates hs maxLocal hi, hs.seedWord hg maxLocal hi⟩)
    ⟨h, hs⟩ n hn).1

theorem next (h : Scored s) (hs : Orderly t chain s) (hstep : p.step t s = .next s') :
    Scored s' := by
  obtain ⟨k, fom, htop, rfl⟩ := step_next hstep
  obtain ⟨hwide, hopen⟩ := hs.wide k fom (State.top?_eq_some htop).1
  obtain ⟨hchart, -, -, hwaiting⟩ := (s.take k fom).gather_eq t k.1 k.2
  have htaken : Scored (s.take k fom) := ⟨h.stored, h.waiting⟩
  have hgathered : Scored ((s.take k fom).gather t k.1 k.2) := by
    refine htaken.queues (fun f hf => ?_) hchart hwaiting
    obtain ⟨e, -, rfl⟩ := mem_collected hf
    exact hrates e s.chart
  exact (hgathered.drain hg hrates ((hs.take k fom).gather hg hwide hopen) p.maxLocal).rekeyAll _

end

end Scored

theorem scored_seeded (hg : t.grammar.WellFormed) (hrates : RatesInside t) (p : SpanFirst) :
    Scored (seeded p t) := by
  have hstart : Scored { chart := Chart.empty t.grammar t.sentence.size p.maxChain } :=
    ⟨BestFirst.rated_empty _ _ _, List.forall_mem_nil _⟩
  unfold seeded State.seed
  dsimp only
  rw [State.propagateAll_eq]
  exact (hstart.words hg hrates (Orderly.start t p.maxChain) p.maxLocal _
    (Nat.le_refl _)).rekeyAll _

/-! ## Tidy states -/

/-- A keyed state in which keys and figures of merit are scores. -/
structure Tidy (t : Task) (chain : Nat) (s : State) : Prop extends Keyed t chain (Tells t) s where
  rated : Rated s.chart

/-- Without a bound on the visits, a search ends in a tidy state in which it is settled or no
span has a key. -/
theorem parse_settles (hg : t.grammar.WellFormed) (hrates : RatesInside t)
    (hvisits : p.maxVisits = 0) :
    ∃ s, Tidy t p.maxChain s ∧ (s.isSettled t = true ∨ s.top? = none) ∧
      (p.parse t).chart = s.chart ∧ (p.parse t).outcome = s.chart.outcome t.grammar ∧
      (p.parse t).faulty = s.faulty := by
  obtain ⟨s, hkeyed, hscored, hover, hreport⟩ := parse_ends hg (keyRule_tells hrates p.maxChain)
    hvisits (scored_seeded hg hrates p) fun s s' hs hI hstep =>
      hI.next hg hrates hs.toOrderly hstep
  exact ⟨s, ⟨hkeyed, hscored.stored⟩, hover, hreport⟩

end SpanFirst
end BestParse
