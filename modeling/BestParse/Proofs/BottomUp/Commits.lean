import BestParse.Proofs.Chart.Frame
import BestParse.Proofs.BottomUp.Log

/-!
# Where bottom-up search commits

Each piece of a bottom-up search commits to one cell.  The unary passes over a span commit to its
layers above zero (`aims_unaryCommits`), a word and a wider span to all layers of their cells
(`aims_wordCommits`, `aims_spanCommits`).  With the frame of commits this tells what the piece
leaves alone.

For offers and unary passes nothing is asked of the chart but that improving commits have led to
it (`Chart.Improved`).  Its scores need not be those of derivations of a sentence.  Offers and
passes keep it such a chart (`improved_offer`, `improved_unaryPasses`).
-/

namespace BestParse

/-- The charts that improving commits lead to. -/
abbrev Chart.Improved (g : Grammar) (size chain : Nat) (c : Chart) : Prop :=
  Chart.Committed g size chain (fun c e => c.accepts e = true) c

/-- A course of improving commits leads to such a chart. -/
theorem Chart.Improving.improved {t : Task} {chain : Nat} {c : Chart} {es : List Edge}
    (h : Chart.Improving t chain c es) (hg : t.grammar.WellFormed) :
    c.Improved t.grammar t.sentence.size chain :=
  (h.committed hg).mono fun _ _ hpasses => hpasses.1

namespace Chart.Improved

variable {g : Grammar} {size chain start stop : Nat} {c : Chart}

theorem isSpan_size (h : c.Improved g size chain) (hspan : IsSpan size start stop) :
    IsSpan c.size start stop := by
  rw [h.size_eq]
  exact hspan

theorem mem_populated_iff (h : c.Improved g size chain) (hspan : IsSpan size start stop)
    {nt : NonTerminal} : nt ∈ c.populated start stop ↔
      nt < g.numNonterminals ∧ (c.bestAt ⟨start, stop, nt⟩).isReachable = true := by
  rw [h.coherent.populated_iff start stop nt (h.isSpan_size hspan),
    h.symbols_eq]

theorem lt_of_mem_populated (h : c.Improved g size chain) (hspan : IsSpan size start stop)
    {nt : NonTerminal} (hmem : nt ∈ c.populated start stop) : nt < g.numNonterminals :=
  ((h.mem_populated_iff hspan).1 hmem).1

/-- A symbol with a reachable layer is listed. -/
theorem mem_populated_of_isReachable (h : c.Improved g size chain) (hspan : IsSpan size start stop)
    {nt : NonTerminal} {layer : Nat} (hnt : nt < g.numNonterminals) (hlayer : layer ≤ chain)
    (hreach : (c.scoreAt ⟨⟨start, stop, nt⟩, layer⟩).isReachable = true) :
    nt ∈ c.populated start stop := by
  have hτ : c.HasTarget ⟨⟨start, stop, nt⟩, layer⟩ :=
    h.hasTarget_iff.2 ⟨⟨hspan, hnt⟩, hlayer⟩
  have hcoh := h.coherent
  exact (h.mem_populated_iff hspan).2
    ⟨hnt, Score.isReachable_mono hreach (hcoh.best_number hτ.1) (hcoh.score_le _ hτ)⟩

theorem layerInside_ne_nan (h : c.Improved g size chain) (hspan : IsSpan size start stop)
    {nt : NonTerminal} {layer : Nat} (hnt : nt < g.numNonterminals) (hlayer : layer ≤ chain) :
    c.layerInside start stop nt layer ≠ .nan :=
  h.coherent.number ⟨⟨start, stop, nt⟩, layer⟩ (h.hasTarget_iff.2 ⟨⟨hspan, hnt⟩, hlayer⟩)

/-- A layer without an edge is unreachable. -/
theorem layerInside_eq_unreachable (h : c.Improved g size chain) (hspan : IsSpan size start stop)
    {nt : NonTerminal} {layer : Nat} (hnt : nt < g.numNonterminals) (hlayer : layer ≤ chain)
    (hnone : c.layerEdge start stop nt layer = none) :
    c.layerInside start stop nt layer = .unreachable := by
  refine Score.eq_unreachable_of_not_isReachable (h.layerInside_ne_nan hspan hnt hlayer) ?_
  intro hreach
  have hedge := (h.coherent.edge_iff ⟨⟨start, stop, nt⟩, layer⟩
    (h.hasTarget_iff.2 ⟨⟨hspan, hnt⟩, hlayer⟩)).2 hreach
  have hsome : (c.layerEdge start stop nt layer).isSome = true := hedge
  rw [hnone] at hsome
  cases hsome

end Chart.Improved

namespace BottomUp

open Chart

variable {g : Grammar} {limits : Limits} {size chain start stop : Nat} {p : Progress}

/-! ## Offers -/

namespace Progress

theorem mem_offerCommits : ∀ {es : List Edge} {p : Progress} {e : Edge},
    e ∈ p.offerCommits g limits es → e ∈ es ∧ limits.allows g e.start e.stop e.parent = true
  | [], _, _, h => by cases h
  | first :: es, p, e, h => by
      rcases List.mem_append.1 h with hfirst | hrest
      · simp only [offerCommit?, Option.mem_toList, Option.ite_none_right_eq_some, offer_fst,
          Bool.and_eq_true, Option.some.injEq] at hfirst
        obtain ⟨⟨-, hallows⟩, rfl⟩ := hfirst
        exact ⟨List.mem_cons_self, hallows⟩
      · obtain ⟨hmem, hallows⟩ := mem_offerCommits hrest
        exact ⟨List.mem_cons_of_mem first hmem, hallows⟩

/-- Offers lead to the chart in which those taken are committed. -/
theorem offerAll_chart (g : Grammar) (limits : Limits) : ∀ (es : List Edge) (p : Progress),
    (p.offerAll g limits es).chart = p.chart.replay g (p.offerCommits g limits es)
  | [], _ => rfl
  | e :: es, p => by
      show ((p.offer g limits e).2.offerAll g limits es).chart = _
      rw [offerAll_chart g limits es, offer_chart_eq_replay, ← replay_append]
      rfl

theorem improved_offer (h : p.chart.Improved g size chain) {e : Edge}
    (he : p.chart.HasTarget e.target) :
    (p.offer g limits e).2.chart.Improved g size chain := by
  rw [offer_chart]
  split
  · next hyes =>
    rw [offer_fst, Bool.and_eq_true] at hyes
    exact h.commit he hyes.1
  · exact h

theorem improved_offerAll {es : List Edge} (h : p.chart.Improved g size chain)
    (hes : ∀ e ∈ es, p.chart.HasTarget e.target) :
    (p.offerAll g limits es).chart.Improved g size chain := by
  induction es generalizing p with
  | nil => exact h
  | cons e es ih =>
      obtain ⟨he, hrest⟩ := List.forall_mem_cons.1 hes
      exact ih (improved_offer h he) fun f hf => hasTarget_offer.2 (hrest f hf)

end Progress

/-! ## Unary passes -/

/-- The unary edges over a layer aim at the layer above. -/
theorem aims_unaryEdges (hg : g.WellFormed) (h : p.chart.Improved g size chain)
    (hspan : IsSpan size start stop) {layer : Nat} (hlayer : layer < chain) {c : Chart} :
    p.chart.Aims (fun τ => OfSpan start stop τ ∧ τ.layer = layer + 1)
      (unaryEdges g c start stop layer) := by
  intro e he
  obtain ⟨child, id, x, -, hid, -, -, rfl⟩ := (mem_unaryEdges hg).1 he
  exact ⟨h.hasTarget_iff.2 ⟨⟨hspan, hg.parent_lt id hid⟩, hlayer⟩, ⟨rfl, rfl⟩, rfl⟩

/-- There is room for the unary edges over a layer. -/
theorem hasRoomFor_unaryEdges (limits : Limits) (hg : g.WellFormed)
    (h : p.chart.Improved g size chain) (hspan : IsSpan size start stop) {layer : Nat}
    (hlayer : layer < chain) :
    ∀ e ∈ unaryEdges g p.chart start stop layer, p.HasRoomFor g limits e := by
  intro e he
  refine ⟨?_, fun _ => (aims_unaryEdges hg h hspan hlayer e he).1⟩
  obtain ⟨child, id, x, -, hid, -, hx, rfl⟩ := (mem_unaryEdges hg).1 he
  exact Score.extend_ne_nan (hg.finite id hid) hx

theorem improved_unaryPass (limits : Limits) (hg : g.WellFormed) (h : p.chart.Improved g size chain)
    (hspan : IsSpan size start stop) {layer : Nat} (hlayer : layer < chain) :
    (p.unaryPass g limits start stop layer).2.chart.Improved g size chain := by
  rw [Progress.unaryPass_snd]
  exact Progress.improved_offerAll h fun e he => (aims_unaryEdges hg h hspan hlayer e he).1

/-- A pass commits to the layer above the one that it reads. -/
theorem aims_offerCommits_unaryEdges (limits : Limits) (hg : g.WellFormed)
    (h : p.chart.Improved g size chain) (hspan : IsSpan size start stop) {layer : Nat}
    (hlayer : layer < chain) :
    p.chart.Aims (fun τ => OfSpan start stop τ ∧ τ.layer = layer + 1)
      (p.offerCommits g limits (unaryEdges g p.chart start stop layer)) :=
  (aims_unaryEdges hg h hspan hlayer).subset fun _ he => (Progress.mem_offerCommits he).1

theorem unaryPass_chart (g : Grammar) (limits : Limits) (p : Progress) (start stop layer : Nat) :
    (p.unaryPass g limits start stop layer).2.chart =
      p.chart.replay g (p.offerCommits g limits (unaryEdges g p.chart start stop layer)) := by
  rw [Progress.unaryPass_snd, Progress.offerAll_chart]

/-- The passes from a layer on lead to the chart in which their edges are committed. -/
theorem unaryPassesFrom_chart (g : Grammar) (limits : Limits) (start stop : Nat) :
    ∀ (passes layer : Nat) (p : Progress),
      (p.unaryPassesFrom g limits start stop passes layer).chart =
        p.chart.replay g (Progress.passCommits g limits start stop passes layer p)
  | 0, _, _ => rfl
  | passes + 1, layer, p => by
      simp only [Progress.unaryPassesFrom, Progress.passCommits, replay_append, ← unaryPass_chart]
      split
      · exact unaryPassesFrom_chart g limits start stop passes (layer + 1) _
      · rfl

theorem unaryPasses_chart (g : Grammar) (limits : Limits) (p : Progress) (start stop : Nat) :
    (p.unaryPasses g limits start stop).chart =
      p.chart.replay g (p.unaryCommits g limits start stop) := by
  simp only [Progress.unaryPasses, Progress.unaryCommits]
  split
  · exact unaryPassesFrom_chart g limits start stop p.chart.maxChain 0 p
  · rfl

section

variable (hg : g.WellFormed) (hspan : IsSpan size start stop)

include hg hspan

theorem improved_unaryPassesFrom : ∀ (passes layer : Nat) {p : Progress},
    layer + passes = chain → p.chart.Improved g size chain →
    (p.unaryPassesFrom g limits start stop passes layer).chart.Improved g size chain
  | 0, _, _, _, h => h
  | passes + 1, layer, p, hchain, h => by
      have hpass := improved_unaryPass limits hg h hspan (show layer < chain by omega)
      simp only [Progress.unaryPassesFrom]
      split
      · exact improved_unaryPassesFrom passes (layer + 1) (by omega) hpass
      · exact hpass

/-- The passes from a layer on commit to the layers above it. -/
theorem aims_passCommits : ∀ (passes layer : Nat) {p : Progress}, layer + passes = chain →
    p.chart.Improved g size chain →
    p.chart.Aims (fun τ => OfSpan start stop τ ∧ layer < τ.layer)
      (Progress.passCommits g limits start stop passes layer p)
  | 0, _, _, _, _ => List.forall_mem_nil _
  | passes + 1, layer, p, hchain, h => by
      have hlayer : layer < chain := by omega
      have hfirst : p.chart.Aims (fun τ => OfSpan start stop τ ∧ layer < τ.layer)
          (p.offerCommits g limits (unaryEdges g p.chart start stop layer)) :=
        (aims_offerCommits_unaryEdges limits hg h hspan hlayer).mono
          fun τ hτ => ⟨hτ.1, hτ.2 ▸ Nat.lt_succ_self layer⟩
      refine hfirst.append ?_
      split
      · have hrest := aims_passCommits passes (layer + 1) (by omega)
          (improved_unaryPass limits hg h hspan hlayer)
        rw [unaryPass_chart] at hrest
        exact hrest.of_replay.mono fun τ hτ => ⟨hτ.1, by omega⟩
      · exact List.forall_mem_nil _

variable (h : p.chart.Improved g size chain)

include h

theorem improved_unaryPasses (limits : Limits) :
    (p.unaryPasses g limits start stop).chart.Improved g size chain := by
  simp only [Progress.unaryPasses]
  split
  · exact improved_unaryPassesFrom hg hspan _ 0 (by rw [Nat.zero_add, h.maxChain_eq]) h
  · exact h

theorem aims_unaryCommits (limits : Limits) :
    p.chart.Aims (fun τ => OfSpan start stop τ ∧ 0 < τ.layer)
      (p.unaryCommits g limits start stop) := by
  simp only [Progress.unaryCommits]
  split
  · exact aims_passCommits hg hspan _ 0 (by rw [Nat.zero_add, h.maxChain_eq]) h
  · exact List.forall_mem_nil _

/-- The unary passes over a span leave layer zero and all layers over other spans. -/
theorem layerAt_unaryPasses (limits : Limits) {τ : Target} (hτ : p.chart.HasTarget τ)
    (hnot : ¬ (OfSpan start stop τ ∧ 0 < τ.layer)) :
    (p.unaryPasses g limits start stop).chart.layerAt τ = p.chart.layerAt τ := by
  rw [unaryPasses_chart]
  exact (aims_unaryCommits hg hspan h limits).layerAt_replay h.shaped.sized hτ hnot

/-- The unary passes over a span leave the slots of other spans. -/
theorem bestOfSlot_unaryPasses (limits : Limits) {x : Slot} (hx : p.chart.HasSlot x)
    (hne : (x.start, x.stop) ≠ (start, stop)) :
    (p.unaryPasses g limits start stop).chart.bestOfSlot x = p.chart.bestOfSlot x := by
  rw [unaryPasses_chart]
  refine (aims_unaryCommits hg hspan h limits).bestOfSlot_replay h.shaped.sized hx ?_
  rintro layer ⟨⟨rfl, rfl⟩, -⟩
  exact hne rfl

/-- The unary passes over a span leave the lists of other spans. -/
theorem cell_unaryPasses (limits : Limits) {first last : Nat} (hother : IsSpan size first last)
    (hne : (first, last) ≠ (start, stop)) :
    (p.unaryPasses g limits start stop).chart.cell first last = p.chart.cell first last := by
  rw [unaryPasses_chart]
  refine (aims_unaryCommits hg hspan h limits).cell_replay h.shaped.sized
    (h.isSpan_size hother) ?_
  rintro nt layer ⟨⟨rfl, rfl⟩, -⟩
  exact hne rfl

end

/-! ## Cells -/

section

variable {t : Task} {s : State} (hg : t.grammar.WellFormed)
  (h : Improving t chain s.progress.chart [])

include hg h

/-- A word commits to its own cell. -/
theorem aims_wordCommits {i : Nat} (hi : i < t.sentence.size) :
    s.progress.chart.Aims (OfSpan i (i + 1)) (s.wordCommits t i) := by
  have himproved := h.improved hg
  have hspan : IsSpan t.sentence.size i (i + 1) := ⟨Nat.lt_succ_self i, hi⟩
  refine Aims.append ?_ ?_
  · intro e he
    obtain ⟨id, hid, rfl⟩ := List.mem_map.1 ((seedEdges_sublist t.grammar i _ _).subset he)
    have hlt := (hg.mem_lexicalWith.1 hid).1
    exact ⟨himproved.hasTarget_iff.2 ⟨⟨hspan, hg.parent_lt id hlt⟩, Nat.zero_le _⟩, rfl, rfl⟩
  · have hsown : (s.sown t i).chart.Improved t.grammar t.sentence.size chain :=
      himproved.seed hg _ hi
    have hunary := aims_unaryCommits hg hspan hsown t.limits
    rw [show (s.sown t i).chart = _ from (seed_log t.grammar s.progress.chart _ i).1] at hunary
    exact hunary.of_replay.mono fun _ hτ => hτ.1

/-- A wider span commits to its own cell. -/
theorem aims_spanCommits {span : Nat × Nat} (hspan : IsSpan t.sentence.size span.1 span.2)
    (discovery : Discovery) :
    s.progress.chart.Aims (OfSpan span.1 span.2) (s.spanCommits t discovery span) := by
  have himproved := h.improved hg
  simp only [State.spanCommits]
  split
  · next hopen =>
    refine Aims.append ?_ ?_
    · intro e he
      obtain ⟨q, hq, hedge⟩ := List.mem_filterMap.1 (Progress.mem_offerCommits he).1
      obtain ⟨x, -, rfl⟩ := Option.map_eq_some_iff.1 hedge
      have hfits := fits_of_mem_proposals hg (h.sound hg) hspan.2 hq
      exact ⟨himproved.hasTarget_iff.2 ⟨⟨hspan, hg.parent_lt _ hfits.1⟩, Nat.zero_le _⟩, rfl, rfl⟩
    · have hfill := leads_fill hg h hspan.2 hopen discovery s.extents
      have hunary := aims_unaryCommits hg hspan (hfill.improving.improved hg) t.limits
      rw [hfill.chart_eq] at hunary
      exact hunary.of_replay.mono fun _ hτ => hτ.1
  · exact List.forall_mem_nil _

end

end BottomUp
end BestParse
