import BestParse.Proofs.BestFirst.Exact
import BestParse.Proofs.BestFirst.Merits

/-!
# Duplicate suppression

A memo queue gives edges up: it declines an edge that is no better than one it took before
for the same target, and an edge it takes replaces the one that waits there.  Nothing is lost
by it when figures of merit are scores.  A search to exhaustion then ends with the scores of
bottom-up search, and every edge that was ever offered to the queue, whatever became of it,
is met by the layer it was for (`suppression_loses_nothing`).

The second part needs the past of a search.  The queue is offered edges only where a slot is
expanded (`Reached.expands`), and these are the edges of derivations
(`Expands.supported_candidates`), so an exact chart has a layer at least as good.
-/

namespace BestParse
namespace BestFirst

open Chart

variable {t : Task} {b : BestFirst} {s s' : State} {e f : Edge}

/-! ## What a queue was offered -/

/-- The queue was offered the edge, and took it or declined it. -/
def Offers (history : Array QueueEvent) (e : Edge) : Prop :=
  .pushed e ∈ history ∨ .declined e ∈ history

instance decidableOffers (history : Array QueueEvent) (e : Edge) : Decidable (Offers history e) :=
  inferInstanceAs (Decidable (_ ∨ _))

theorem offers_popped {history : Array QueueEvent} {taken : Option Edge} :
    Offers (history.push (.popped taken)) f ↔ Offers history f := by
  simp [Offers]

theorem offers_push (t : Task) (s : State) (e : Edge) :
    Offers (s.push t e).history f ↔
      Offers s.history f ∨ f = e.withFom (t.merit.score e s.chart) := by
  unfold State.push
  dsimp only
  split
  · simp only [Offers, Array.mem_push, QueueEvent.pushed.injEq, reduceCtorEq, or_false]
    exact or_right_comm
  · simp only [Offers, Array.mem_push, QueueEvent.declined.injEq, reduceCtorEq, or_false]
    exact or_assoc.symm

theorem offers_pushAll (t : Task) : ∀ (es : List Edge) (s : State),
    Offers (es.foldl (fun s e => s.push t e) s).history f ↔
      Offers s.history f ∨ ∃ e ∈ es, f = e.withFom (t.merit.score e s.chart)
  | [], _ => by simp
  | e :: es, s => by
      rw [List.foldl_cons, offers_pushAll t es, offers_push, (State.push_eq t s e).1,
        List.exists_mem_cons_iff, or_assoc]

/-- An expansion offers its candidates. -/
theorem offers_expand {target : Target} {effect : Effect} :
    Offers (s.expand t target effect).history f ↔
      Offers s.history f ∨
        ∃ e ∈ candidates t s target effect, f = e.withFom (t.merit.score e s.chart) :=
  offers_pushAll t (candidates t s target effect) _

/-- The turn that ends a search offers nothing. -/
theorem offers_halt (hstep : b.step t s = .halt s') :
    Offers s'.history f ↔ Offers s.history f := by
  rcases halt_cases hstep with ⟨-, rfl⟩ | ⟨-, rfl⟩ | ⟨-, rfl⟩
  · exact Iff.rfl
  · exact Iff.rfl
  · exact offers_popped

/-! ## Offers are supported -/

/-- The scores of the chart are those of derivations wherever a search expands a slot. -/
theorem Expands.attains (hg : t.grammar.WellFormed) {target : Target} {effect : Effect}
    (h : Expands b t s target effect) : s.chart.Attains t b.maxChain := by
  cases h with
  | word seeds => exact (Course.attains (seeds.sowing hg).2 hg).1
  | @turn s e reached searching allowed head accepted continues =>
      have hcommit : OnCourse t b.maxChain _ (s.taken t e) :=
        (reached.steady hg).2.commit head trivial rfl rfl
      exact (Course.attains hcommit hg).1

theorem Expands.supported_candidates (hg : t.grammar.WellFormed) {target : Target}
    {effect : Effect} (h : Expands b t s target effect) (htarget : s.chart.HasTarget target)
    (he : e ∈ candidates t s target effect) : e.Supported t b.maxChain := by
  obtain ⟨-, -, pending, slots, hregular, -⟩ := h.regular hg
  exact BestFirst.supported_candidates (h.attains hg) hg hregular htarget he

theorem Expands.hasTarget (hg : t.grammar.WellFormed) {target : Target} {effect : Effect}
    (h : Expands b t s target effect) : s.chart.HasTarget target := by
  cases h with
  | word seeds =>
      obtain ⟨⟨slots, hseeding⟩, -⟩ := seeds.sowing hg
      exact ⟨(hseeding.fresh _ List.mem_cons_self).1, Nat.zero_le _⟩
  | @turn s e reached searching allowed head accepted continues =>
      obtain ⟨⟨pending, slots, hregular, -⟩, -⟩ := reached.steady hg
      exact hregular.queued e (List.mem_of_mem_head? head)

/-- What an expansion adds to the offers is supported. -/
theorem Expands.supported_offers (hg : t.grammar.WellFormed) {target : Target} {effect : Effect}
    (h : Expands b t s target effect)
    (hbefore : ∀ f, Offers s.history f → f.Supported t b.maxChain)
    (hf : Offers (s.expand t target effect).history f) : f.Supported t b.maxChain := by
  rcases offers_expand.1 hf with hold | ⟨e, he, rfl⟩
  · exact hbefore f hold
  · obtain ⟨D, hD⟩ := h.supported_candidates hg (h.hasTarget hg) he
    exact ⟨D, hD⟩

theorem Seeds.supported_offers (hg : t.grammar.WellFormed) {words : Nat} {nts : List NonTerminal}
    (h : Seeds b t words nts s) :
    ∀ f, Offers s.history f → f.Supported t b.maxChain := by
  induction h with
  | start => exact fun f hf => by simp [Offers, BestFirst.start] at hf
  | word before lt ih => exact ih
  | slot before ih => exact fun f => (Expands.word before).supported_offers hg ih

theorem Reached.supported_offers (hg : t.grammar.WellFormed) (h : Reached b t s) :
    ∀ f, Offers s.history f → f.Supported t b.maxChain := by
  induction h with
  | seeded =>
      exact fun f hf => (seeds_words b t t.sentence.size (Nat.le_refl _)).supported_offers hg f hf
  | @next s s' before turn ih =>
      rcases before.expands turn with ⟨-, e, heq⟩ | ⟨e, hexpands, rfl⟩
      · rw [heq]
        exact fun f hf => ih f (offers_popped.1 hf)
      · exact fun f => hexpands.supported_offers hg fun f hf => ih f (offers_popped.1 hf)

theorem history_parse (b : BestFirst) (t : Task)
    (hs : b.run t (turns t b.maxChain) ((b.start t).seed t b.untilExhausted) = s) :
    (b.parse t).2.history = s.history := by
  rw [parse, search, hs]
  rfl

/-- Every edge that was offered to the queue in a parse has the target and the score of a
derivation. -/
theorem supported_offers_parse (hg : t.grammar.WellFormed) (b : BestFirst)
    (hf : Offers (b.parse t).2.history f) : f.Supported t b.maxChain := by
  obtain ⟨s, -, hreached, hhalt⟩ := search_halts hg b (I := Reached b t) .seeded
    fun s s' _ hreached hstep => hreached.next hstep
  generalize hrun : b.run t (turns t b.maxChain) _ = last at hhalt
  rw [history_parse b t hrun] at hf
  exact hreached.supported_offers hg f ((offers_halt hhalt).1 hf)

/-! ## Nothing is lost -/

/-- An exact chart meets every supported edge. -/
theorem inside_le_of_supported {c : Chart} {chain : Nat} (h : c.Exact t chain)
    (hg : t.grammar.WellFormed) (he : e.Supported t chain) :
    e.inside.isAtMost (c.layerInside e.start e.stop e.parent e.layer) = true := by
  have htarget := h.isFor.hasTarget_of_supported hg he
  rw [layerInside_eq]
  refine Score.isAtMost_iff.2
    ⟨inside_ne_nan_of_supported hg he, h.coherent.number _ htarget, ?_⟩
  obtain ⟨D, hD, heq, hscore⟩ := he
  have hle := h.dominates D hD _ hscore
  rw [heq] at hle
  exact hle

/-- When figures of merit are scores, a search to exhaustion ends with the scores of bottom-up
search whatever its frontier, commit rule and queue, and no edge that was offered to the queue
is better than what the chart holds for its target. -/
theorem suppression_loses_nothing {d : Draft} {t : Task} (hbuild : d.build = .ok t.grammar)
    (hmerit : t.merit = .inside) (b : BestFirst) (huntil : b.untilExhausted = true)
    (hpops : b.maxPops = 0) (b' : BottomUp) (hchain : b.maxChain = b'.maxChain) :
    (∀ start stop nt depth, IsSpan t.sentence.size start stop → nt < t.grammar.numNonterminals →
      depth ≤ b.maxChain →
      ((b.parse t).1.chart.layerInside start stop nt depth).Agrees
        ((b'.parse t).1.chart.layerInside start stop nt depth)) ∧
    (∀ start stop nt, IsSpan t.sentence.size start stop → nt < t.grammar.numNonterminals →
      ((b.parse t).1.chart.inside start stop nt).Agrees
        ((b'.parse t).1.chart.inside start stop nt)) ∧
    (∀ e, Offers (b.parse t).2.history e →
      e.inside.isAtMost ((b.parse t).1.chart.layerInside e.start e.stop e.parent e.layer) =
        true) ∧
    ((b.parse t).1.faulty = true → (b'.parse t).1.faulty = true) := by
  have hg := wellFormed_of_build hbuild
  have hrates : RatesInside t := by
    intro e c
    rw [hmerit]
    rfl
  have hexact := exact_parse hg (Or.inr hrates) (Or.inr hrates) huntil hpops
  have hexact' := b'.exact_parse hg
  rw [← hchain] at hexact'
  refine ⟨?layers, ?slots, ?offers, ?faults⟩
  case layers =>
    intro start stop nt depth hspan hnt hdepth
    exact hexact.agrees_layerInside hexact' hspan hnt hdepth
  case slots =>
    intro start stop nt hspan hnt
    exact hexact.agrees_inside hexact' hg hspan hnt
  case offers =>
    intro e he
    exact inside_le_of_supported hexact hg (supported_offers_parse hg b he)
  case faults =>
    intro hfaulty
    rcases faulty_parse hg b' hfaulty with hfault | ⟨e, he⟩
    · exact hfault
    · rw [hmerit] at he
      cases he

/-- The worse of two rivals is declined, and the layer they are for holds the score of the
better one. -/
theorem suppression_loses_nothing_rival :
    ∃ b : BestFirst, b.queue.kind = .memo ∧ ∃ e,
      .declined e ∈ (b.parse { worstFirst with merit := .inside }).2.history ∧
      e.inside = .ofRatio true 11 2 ∧
      e.inside.isAtMost ((b.parse { worstFirst with merit := .inside }).1.chart.layerInside
        e.start e.stop e.parent e.layer) = true ∧
      ((b.parse { worstFirst with merit := .inside }).1.chart.layerInside 0 2 1 0).Agrees
        (.ofRatio true 1 1) := by
  have hvalue : ((BottomUp.mk .productions 1 {}).parse
      { worstFirst with merit := .inside }).1.chart.layerInside 0 2 1 0 = .ofRatio true 1 1 := by
    decide +kernel
  obtain ⟨hlayers, -, hoffers, -⟩ := suppression_loses_nothing
    (t := { worstFirst with merit := .inside }) (Draft.build_eq_ok _) rfl
    { BestFirst.new .ghost .heuristic .memo with untilExhausted := true } rfl rfl
    (.mk .productions 1 {}) rfl
  have hlayer := hlayers 0 2 1 0 (by decide +kernel) (by decide +kernel) (by decide)
  rw [hvalue] at hlayer
  let rival := (Edge.binary rivalGrammar 6 0 1 2 (.ofRatio true 11 2)).withFom (.ofRatio true 11 2)
  have hdeclined : .declined rival ∈
      ({ BestFirst.new .ghost .heuristic .memo with untilExhausted := true }.parse
        { worstFirst with merit := .inside }).2.history := by decide +kernel
  exact ⟨_, rfl, rival, hdeclined, rfl, hoffers rival (Or.inr hdeclined), hlayer⟩

end BestFirst
end BestParse
