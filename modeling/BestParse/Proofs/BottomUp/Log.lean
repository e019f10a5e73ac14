import BestParse.Proofs.Chart.Log
import BestParse.Proofs.BottomUp.Viterbi

/-!
# The log of bottom-up search

Bottom-up search commits the seeds of its words and the offers that are taken.  `commits` lists
them in order, following the definition of the search: the cells of the words, then the wider
cells, each with its binary edges and the unary passes over it.

A pass or a list of proposals is made over one chart and then offered edge by edge, so while it
is offered the edges that are left are in hand (`leads_offers`).  Between these nothing is in hand:
the search makes the edges it needs, commits those that improve their layers, and drops the
others (`improving_parse`).
-/

namespace BestParse
namespace BottomUp

open Chart
open Edge (licensed_unary licensed_binary)

variable {t : Task} {chain : Nat}

/-! ## The edges committed -/

namespace Progress

/-- The edge that an offer commits, if it is taken. -/
def offerCommit? (g : Grammar) (limits : Limits) (p : Progress) (e : Edge) : Option Edge :=
  if (p.offer g limits e).1 then some e else none

/-- The offers that are taken. -/
def offerCommits (g : Grammar) (limits : Limits) (p : Progress) (es : List Edge) : List Edge :=
  loopLog (fun p e => (p.offer g limits e).2) (fun p e => (p.offerCommit? g limits e).toList) p es

/-- The edges that at most so many unary passes commit, from a layer on. -/
def passCommits (g : Grammar) (limits : Limits) (start stop : Nat) :
    (passes layer : Nat) → Progress → List Edge
  | 0, _, _ => []
  | passes + 1, layer, p =>
    p.offerCommits g limits (unaryEdges g p.chart start stop layer) ++
      if (p.unaryPass g limits start stop layer).1 then
        passCommits g limits start stop passes (layer + 1)
          (p.unaryPass g limits start stop layer).2
      else []

/-- The edges that the unary passes over a span commit. -/
def unaryCommits (g : Grammar) (limits : Limits) (p : Progress) (start stop : Nat) : List Edge :=
  if limits.unaryOpen start stop then passCommits g limits start stop p.chart.maxChain 0 p else []

end Progress

namespace State

/-- The search after the word at a position is seeded. -/
def sown (t : Task) (s : State) (i : Nat) : Progress where
  chart := (s.progress.chart.seed t.grammar (t.sentence.token? i) i).2
  work := { s.progress.work with
    committed := s.progress.work.committed +
      (s.progress.chart.seed t.grammar (t.sentence.token? i) i).1.size }

/-- The edges that a word commits: its seeds, and unary edges over them. -/
def wordCommits (t : Task) (s : State) (i : Nat) : List Edge :=
  s.progress.chart.seedEdges t.grammar i (t.grammar.lexicalWith (t.sentence.token? i)) ++
    (s.sown t i).unaryCommits t.grammar t.limits i (i + 1)

/-- The proposals over a span. -/
def proposed (t : Task) (discovery : Discovery) (s : State) (start stop : Nat) : List Proposal :=
  proposals t.grammar t.limits s.progress.chart s.extents start stop discovery

/-- The edges that a wider cell commits: binary edges, and unary edges over them. -/
def spanCommits (t : Task) (discovery : Discovery) (s : State) (span : Nat × Nat) : List Edge :=
  let list := s.proposed t discovery span.1 span.2
  if t.limits.isOpen span.1 span.2 then
    s.progress.offerCommits t.grammar t.limits
        (list.filterMap (Proposal.edge? t.grammar span.1 span.2)) ++
      (s.progress.fill t.grammar t.limits span.1 span.2 list).unaryCommits t.grammar t.limits
        span.1 span.2
  else []

/-- The search after the words. -/
def words (t : Task) (discovery : Discovery) (s : State) : State :=
  (List.range t.sentence.size).foldl (fun s i => s.fillWord t discovery i) s

/-- The edges that filling all cells commits. -/
def runCommits (t : Task) (discovery : Discovery) (s : State) : List Edge :=
  loopLog (fun s i => s.fillWord t discovery i) (wordCommits t) s (List.range t.sentence.size) ++
    loopLog (fun s span => s.fillSpan t discovery span.1 span.2) (spanCommits t discovery)
      (s.words t discovery) (widerSpans t.sentence.size)

end State

/-- The edges that a parse commits, in order. -/
def commits (b : BottomUp) (t : Task) : List Edge :=
  (State.start t b.maxChain).runCommits t b.discovery

/-! ## Offers -/

theorem Progress.committed_offer (g : Grammar) (limits : Limits) (p : Progress) (e : Edge) :
    (p.offer g limits e).2.work.committed =
      p.work.committed + (p.offerCommit? g limits e).toList.length := by
  unfold offerCommit?
  rw [offer_fst]
  unfold offer
  dsimp only
  split <;> rfl

theorem Progress.offer_chart_eq_replay (g : Grammar) (limits : Limits) (p : Progress) (e : Edge) :
    (p.offer g limits e).2.chart = p.chart.replay g (p.offerCommit? g limits e).toList := by
  rw [offer_chart]
  unfold offerCommit?
  split <;> rfl

theorem leads_offer {p : Progress} {hand : List Edge} (h : Improving t chain p.chart hand)
    {e : Edge} (he : t.limits.allows t.grammar e.start e.stop e.parent = true → e ∈ hand) :
    Improving t chain (p.offer t.grammar t.limits e).2.chart hand ∧
      Leads t chain p.chart p.work.committed (p.offerCommit? t.grammar t.limits e).toList
        (p.offer t.grammar t.limits e).2.chart
        (p.offer t.grammar t.limits e).2.work.committed := by
  have hafter : Improving t chain (p.offer t.grammar t.limits e).2.chart hand := by
    rw [Progress.offer_chart]
    split
    · next hyes =>
      rw [Progress.offer_fst, Bool.and_eq_true] at hyes
      exact h.commit (he hyes.2) hyes.1
    · exact h
  exact ⟨hafter, Leads.step h hafter (p.offer_chart_eq_replay _ _ e) (p.committed_offer _ _ e)⟩

/-- Edges made over the chart are offered in turn. -/
theorem leads_offers {p : Progress} (h : Improving t chain p.chart []) {es : List Edge}
    (hes : ∀ e ∈ es, t.limits.allows t.grammar e.start e.stop e.parent = true →
      e.Licensed t chain ∧ e.scoreOver? t.grammar p.chart = some e.inside) :
    Leads t chain p.chart p.work.committed (p.offerCommits t.grammar t.limits es)
      (p.offerAll t.grammar t.limits es).chart
      (p.offerAll t.grammar t.limits es).work.committed := by
  have hmade := h.makeAll (es.filter fun e => t.limits.allows t.grammar e.start e.stop e.parent)
    fun e he => hes e (List.mem_filter.1 he).1 (List.mem_filter.1 he).2
  exact (Leads.loop Progress.chart (fun p => p.work.committed) _
    (fun p e => (p.offerCommit? t.grammar t.limits e).toList)
    (fun p hp => ⟨_, hp⟩) es p
    (fun e he p hp => leads_offer hp fun hallows =>
      List.mem_append_left _ (List.mem_filter.2 ⟨he, hallows⟩))
    hmade).2

section

variable (hg : t.grammar.WellFormed) {start stop : Nat}

include hg

/-- The unary edges over a layer are made from the current scores. -/
theorem made_unaryEdges {c : Chart} (hspan : IsSpan t.sentence.size start stop) {layer : Nat}
    (hlayer : layer < chain) (hopen : t.limits.unaryOpen start stop = true) :
    ∀ e ∈ unaryEdges t.grammar c start stop layer,
      t.limits.allows t.grammar e.start e.stop e.parent = true →
      e.Licensed t chain ∧ e.scoreOver? t.grammar c = some e.inside := by
  intro e he hallows
  obtain ⟨child, id, x, -, hid, hexp, hx, rfl⟩ := (mem_unaryEdges hg).1 he
  exact licensed_unary hspan hlayer hid hexp hopen hallows hx

/-- The binary edges that a discovery finds are made from the current scores. -/
theorem made_proposals {c : Chart} (hc : c.Sound t chain) (hstop : stop ≤ t.sentence.size)
    (hopen : t.limits.isOpen start stop = true) (discovery : Discovery) (extents : Extents) :
    ∀ e ∈ (proposals t.grammar t.limits c extents start stop discovery).filterMap
        (Proposal.edge? t.grammar start stop),
      t.limits.allows t.grammar e.start e.stop e.parent = true →
      e.Licensed t chain ∧ e.scoreOver? t.grammar c = some e.inside := by
  intro e he hallows
  obtain ⟨q, hq, hedge⟩ := List.mem_filterMap.1 he
  obtain ⟨x, hx, rfl⟩ := Option.map_eq_some_iff.1 hedge
  obtain ⟨hid, hmid, l, r, hexp, hleft, hright⟩ := fits_of_mem_proposals hg hc hstop hq
  rw [hleft, hright] at hx
  exact licensed_binary hstop hid hexp hopen hmid hallows hx

theorem leads_unaryPass {p : Progress} (h : Improving t chain p.chart [])
    (hspan : IsSpan t.sentence.size start stop) {layer : Nat} (hlayer : layer < chain)
    (hopen : t.limits.unaryOpen start stop = true) :
    Leads t chain p.chart p.work.committed
      (p.offerCommits t.grammar t.limits (unaryEdges t.grammar p.chart start stop layer))
      (p.unaryPass t.grammar t.limits start stop layer).2.chart
      (p.unaryPass t.grammar t.limits start stop layer).2.work.committed := by
  rw [Progress.unaryPass_snd]
  exact leads_offers h (made_unaryEdges hg hspan hlayer hopen)

theorem leads_passes (hspan : IsSpan t.sentence.size start stop)
    (hopen : t.limits.unaryOpen start stop = true) :
    ∀ (passes layer : Nat) {p : Progress}, layer + passes = chain →
      Improving t chain p.chart [] →
      Leads t chain p.chart p.work.committed
        (Progress.passCommits t.grammar t.limits start stop passes layer p)
        (p.unaryPassesFrom t.grammar t.limits start stop passes layer).chart
        (p.unaryPassesFrom t.grammar t.limits start stop passes layer).work.committed
  | 0, _, _, _, h => Leads.refl h _
  | passes + 1, layer, p, hchain, h => by
      have hlayer : layer < chain := by omega
      have hleads := leads_unaryPass hg h hspan hlayer hopen
      unfold Progress.unaryPassesFrom Progress.passCommits
      dsimp only
      split
      · exact hleads.trans (leads_passes hspan hopen passes (layer + 1) (by omega) hleads.improving)
      · rw [List.append_nil]
        exact hleads

theorem leads_unaryPasses {p : Progress} (h : Improving t chain p.chart [])
    (hspan : IsSpan t.sentence.size start stop) :
    Leads t chain p.chart p.work.committed (p.unaryCommits t.grammar t.limits start stop)
      (p.unaryPasses t.grammar t.limits start stop).chart
      (p.unaryPasses t.grammar t.limits start stop).work.committed := by
  unfold Progress.unaryPasses Progress.unaryCommits
  split
  · next hopen =>
    refine leads_passes hg hspan hopen _ 0 ?_ h
    rw [Nat.zero_add, (h.sound hg).isFor.maxChain_eq]
  · exact Leads.refl h _

theorem leads_fill {p : Progress} (h : Improving t chain p.chart [])
    (hstop : stop ≤ t.sentence.size) (hopen : t.limits.isOpen start stop = true)
    (discovery : Discovery) (extents : Extents) :
    Leads t chain p.chart p.work.committed
      (p.offerCommits t.grammar t.limits
        ((proposals t.grammar t.limits p.chart extents start stop discovery).filterMap
          (Proposal.edge? t.grammar start stop)))
      (p.fill t.grammar t.limits start stop
        (proposals t.grammar t.limits p.chart extents start stop discovery)).chart
      (p.fill t.grammar t.limits start stop
        (proposals t.grammar t.limits p.chart extents start stop discovery)).work.committed := by
  rw [Progress.fill_eq]
  exact leads_offers h (made_proposals hg (h.sound hg) hstop hopen discovery extents)

/-! ## Cells -/

theorem leads_fillWord (discovery : Discovery) {s : State} {i : Nat}
    (h : Improving t chain s.progress.chart []) (hi : i < t.sentence.size) :
    Leads t chain s.progress.chart s.progress.work.committed (s.wordCommits t i)
      (s.fillWord t discovery i).progress.chart
      (s.fillWord t discovery i).progress.work.committed := by
  have hseeds := leads_seedEdges h hg hi s.progress.work.committed
  have hseeded : Improving t chain (s.sown t i).chart [] :=
    h.seed hg (fun _ _ haccepts => haccepts) hi
  unfold State.fillWord
  dsimp only
  rw [progress_finishCell]
  exact hseeds.trans (leads_unaryPasses hg hseeded ⟨Nat.lt_succ_self i, hi⟩)

theorem leads_fillSpan (discovery : Discovery) {s : State} {span : Nat × Nat}
    (h : Improving t chain s.progress.chart []) (hspan : IsSpan t.sentence.size span.1 span.2) :
    Leads t chain s.progress.chart s.progress.work.committed (s.spanCommits t discovery span)
      (s.fillSpan t discovery span.1 span.2).progress.chart
      (s.fillSpan t discovery span.1 span.2).progress.work.committed := by
  unfold State.fillSpan State.spanCommits
  dsimp only
  rw [progress_finishCell]
  split
  · next hopen =>
    have hfill := leads_fill hg h hspan.2 hopen discovery s.extents
    exact hfill.trans (leads_unaryPasses hg hfill.improving hspan)
  · exact Leads.refl h _

/-! ## Whole searches -/

theorem leads_words (discovery : Discovery) {s : State}
    (h : Improving t chain s.progress.chart []) {n : Nat} (hn : n ≤ t.sentence.size) :
    Improving t chain
        ((List.range n).foldl (fun s i => s.fillWord t discovery i) s).progress.chart [] ∧
      Leads t chain s.progress.chart s.progress.work.committed
        (loopLog (fun s i => s.fillWord t discovery i) (State.wordCommits t) s (List.range n))
        ((List.range n).foldl (fun s i => s.fillWord t discovery i) s).progress.chart
        ((List.range n).foldl (fun s i => s.fillWord t discovery i) s).progress.work.committed :=
  Leads.loop (fun s : State => s.progress.chart) (fun s => s.progress.work.committed) _ _
    (I := fun s => Improving t chain s.progress.chart []) (fun _ h => ⟨_, h⟩) _ _
    (fun _ hi _ h =>
      have hword := leads_fillWord hg discovery h (Nat.lt_of_lt_of_le (List.mem_range.1 hi) hn)
      ⟨hword.improving, hword⟩) h

theorem leads_spans (discovery : Discovery) {s : State}
    (h : Improving t chain s.progress.chart []) {spans : List (Nat × Nat)}
    (hspans : spans <+: widerSpans t.sentence.size) :
    Leads t chain s.progress.chart s.progress.work.committed
      (loopLog (fun s span => s.fillSpan t discovery span.1 span.2)
        (State.spanCommits t discovery) s spans)
      (spans.foldl (fun s span => s.fillSpan t discovery span.1 span.2) s).progress.chart
      (spans.foldl (fun s span => s.fillSpan t discovery span.1 span.2)
        s).progress.work.committed :=
  (Leads.loop (fun s : State => s.progress.chart) (fun s => s.progress.work.committed)
    (fun s span => s.fillSpan t discovery span.1 span.2) (State.spanCommits t discovery)
    (I := fun s => Improving t chain s.progress.chart []) (fun _ h => ⟨_, h⟩) spans _
    (fun span hmem s h => by
      obtain ⟨hlt, hle⟩ := mem_widerSpans.1 (hspans.subset hmem)
      have hcell := leads_fillSpan hg discovery h ⟨by omega, hle⟩
      exact ⟨hcell.improving, hcell⟩) h).2

omit hg in
theorem improving_start (b : BottomUp) :
    Improving t b.maxChain (State.start t b.maxChain).progress.chart [] :=
  Course.start

/-- After the words and some of the wider cells. -/
theorem leads_words_spans (b : BottomUp) {spans : List (Nat × Nat)}
    (hspans : spans <+: widerSpans t.sentence.size) :
    Leads t b.maxChain (Chart.empty t.grammar t.sentence.size b.maxChain) 0
      (loopLog (fun s i => s.fillWord t b.discovery i) (State.wordCommits t)
          (State.start t b.maxChain) (List.range t.sentence.size) ++
        loopLog (fun s span => s.fillSpan t b.discovery span.1 span.2)
          (State.spanCommits t b.discovery)
          ((State.start t b.maxChain).words t b.discovery) spans)
      (spans.foldl (fun s span => s.fillSpan t b.discovery span.1 span.2)
        ((State.start t b.maxChain).words t b.discovery)).progress.chart
      (spans.foldl (fun s span => s.fillSpan t b.discovery span.1 span.2)
        ((State.start t b.maxChain).words t b.discovery)).progress.work.committed := by
  obtain ⟨hcourse, hwords⟩ := leads_words hg b.discovery (improving_start b)
    (Nat.le_refl t.sentence.size)
  exact hwords.trans (leads_spans hg b.discovery hcourse hspans)

/-- The log of a parse leads from the empty chart to the chart that the parse leaves. -/
theorem leads_parse (b : BottomUp) :
    Leads t b.maxChain (Chart.empty t.grammar t.sentence.size b.maxChain) 0 (b.commits t)
      (b.parse t).1.chart (b.parse t).1.work.committed :=
  leads_words_spans hg b List.prefix_rfl

theorem improving_parse (b : BottomUp) : Improving t b.maxChain (b.parse t).1.chart [] :=
  (leads_parse hg b).improving

/-- The log leads through the chart that is there after some of the words. -/
theorem isStage_words (b : BottomUp) {n : Nat} (hn : n ≤ t.sentence.size) :
    (Chart.empty t.grammar t.sentence.size b.maxChain).IsStage t.grammar (b.commits t)
      ((List.range n).foldl (fun s i => s.fillWord t b.discovery i)
        (State.start t b.maxChain)).progress.chart :=
  (leads_words hg b.discovery (improving_start b) hn).2.isStage
    ((loopLog_mono _ _ _ (range_mono hn)).trans (List.prefix_append _ _))

/-- The log leads through the chart that is there after some of the wider cells. -/
theorem isStage_spans (b : BottomUp) (n : Nat) :
    (Chart.empty t.grammar t.sentence.size b.maxChain).IsStage t.grammar (b.commits t)
      (((widerSpans t.sentence.size).take n).foldl
        (fun s span => s.fillSpan t b.discovery span.1 span.2)
        ((State.start t b.maxChain).words t b.discovery)).progress.chart :=
  (leads_words_spans hg b (List.take_prefix n _)).isStage
    ((List.prefix_append_right_inj _).2 (loopLog_mono _ _ _ (List.take_prefix n _)))

end

end BottomUp
end BestParse
