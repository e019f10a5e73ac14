import BestParse.Proofs.Chart.Records
import BestParse.Proofs.Parser

/-!
# What a chart represents

The arrays and lists of a chart tell one story as long as every commit improves its layer:
slots hold the best of their layers, layers hold the edge committed to them last, and the
lists of a cell name what is populated, once each.  No commit takes any of this back.

The story is told in the terms in which a chart is read.  Bottom-up search, span-first search
and best-first search with the rule that compares scores commit nothing but improvements, so
it holds of their charts (`commits_keep_representation`).
-/

namespace BestParse

open Chart

/-- The parser commits nothing but improvements. -/
def Parser.CommitsImprovements : Parser → Prop
  | .bestFirst b => b.rule = .inside
  | _ => True

/-- Such a parser follows a course of improving commits. -/
theorem Parser.improving_parse {t : Task} (hg : t.grammar.WellFormed) {p : Parser}
    (h : p.CommitsImprovements) : ∃ es, Improving t p.maxChain (p.parse t).1.chart es := by
  cases p with
  | bottomUp b => exact ⟨[], BottomUp.improving_parse hg b⟩
  | bestFirst b => exact BestFirst.improving_parse hg b h
  | spanFirst p => exact (SpanFirst.improving_parse hg p).1

theorem Parser.committed_parse {t : Task} (hg : t.grammar.WellFormed) {p : Parser}
    (h : p.CommitsImprovements) :
    Committed t.grammar t.sentence.size p.maxChain (fun c e => c.accepts e = true)
      (p.parse t).1.chart := by
  obtain ⟨es, hcourse⟩ := improving_parse (t := t) hg h
  exact (hcourse.committed hg).mono fun _ _ hpasses => hpasses.1

namespace Chart

variable {g : Grammar} {c : Chart} {e : Edge}

/-! ## Reading -/

/-- A slot holds the best of its layers, and knows which. -/
theorem Coherent.inside_spec (h : c.Coherent g) {start stop : Nat} {nt : NonTerminal}
    (hslot : c.HasSlot ⟨start, stop, nt⟩) :
    c.unaryDepth start stop nt ≤ c.maxChain ∧
    c.inside start stop nt = c.layerInside start stop nt (c.unaryDepth start stop nt) ∧
    ∀ depth, depth ≤ c.maxChain →
      (c.layerInside start stop nt depth).isAtMost (c.inside start stop nt) = true := by
  refine ⟨h.depth_le ⟨start, stop, nt⟩ hslot, ?_, fun depth hdepth => ?_⟩
  · rw [inside_eq, layerInside_eq]
    exact h.best_eq _ hslot
  · have htarget : c.HasTarget ⟨⟨start, stop, nt⟩, depth⟩ := ⟨hslot, hdepth⟩
    rw [inside_eq, layerInside_eq, Score.isAtMost_iff]
    exact ⟨h.number _ htarget, h.best_number hslot, h.score_le _ htarget⟩

/-- The lists of a cell name what is populated, by role and in one order. -/
theorem Coherent.lists_spec (h : c.Coherent g) (hg : g.WellFormed) {start stop : Nat}
    (hspan : IsSpan c.size start stop) :
    (c.leftChildren start stop).Sublist (c.populated start stop) ∧
    (c.rightChildren start stop).Sublist (c.populated start stop) ∧
    ∀ nt,
      (nt ∈ c.leftChildren start stop ↔ nt ∈ c.populated start stop ∧
        ∃ id r, id < g.numProductions ∧ (g.production id).expansion = .binary nt r) ∧
      (nt ∈ c.rightChildren start stop ↔ nt ∈ c.populated start stop ∧
        ∃ id l, id < g.numProductions ∧ (g.production id).expansion = .binary l nt) := by
  rw [h.left_eq _ _ hspan, h.right_eq _ _ hspan]
  refine ⟨List.filter_sublist, List.filter_sublist, fun nt => ?_⟩
  rw [List.mem_filter, List.mem_filter, hg.isLeftChild_iff, hg.isRightChild_iff]
  exact ⟨Iff.rfl, Iff.rfl⟩

/-! ## Committing -/

section

variable (h : c.Coherent g) (he : c.HasTarget e.target) (hacc : c.accepts e = true)

include h he hacc

/-- No score goes down. -/
theorem Coherent.isAtMost_store :
    (∀ τ, c.HasTarget τ → (c.scoreAt τ).isAtMost ((c.store g e).scoreAt τ) = true) ∧
    ∀ x, c.HasSlot x → (c.bestAt x).isAtMost ((c.store g e).bestAt x) = true := by
  have hgrows := h.grows_store he hacc
  have hafter := h.store he hacc
  constructor
  · intro τ hτ
    exact Score.isAtMost_iff.2 ⟨h.number τ hτ, hafter.number τ hτ, hgrows.score_le τ hτ⟩
  · intro x hx
    exact Score.isAtMost_iff.2 ⟨h.best_number hx, hafter.best_number hx, hgrows.best_le x hx⟩

/-- The effect tells whether the slot was populated and whether its score went up. -/
theorem Coherent.effect_spec :
    (c.isNew e = true ↔ e.parent ∉ c.populated e.start e.stop) ∧
    (c.raises e = true ↔
      ((c.store g e).bestAt e.slot).improves (c.bestAt e.slot) = true) := by
  have hslot : c.HasSlot e.slot := he.1
  constructor
  · rw [h.isNew_iff hslot, h.populated_iff e.start e.stop e.parent hslot.1, not_and]
    exact ⟨fun hnot _ => hnot, fun hnot => hnot hslot.2⟩
  · rw [bestAt_store h.sized he hslot]
    cases hraises : c.raises e with
    | true => simpa using (h.raises_iff hslot hacc).1 hraises
    | false => simp [Score.not_improves_self]

end

/-- After any commits that each improved their layer, slots, layers and lists agree; the next
such commit lowers nothing and reports its effect; and so do the commits of seeding and of the
searches. -/
theorem commits_keep_representation {d : Draft} {g : Grammar} (hbuild : d.build = .ok g)
    {size chain : Nat} {c : Chart}
    (hc : Committed g size chain (fun c e => c.accepts e = true) c) :
    (∀ start stop nt, IsSpan size start stop → nt < g.numNonterminals →
      c.unaryDepth start stop nt ≤ chain ∧
      c.inside start stop nt = c.layerInside start stop nt (c.unaryDepth start stop nt) ∧
      ∀ depth, depth ≤ chain →
        (c.layerInside start stop nt depth).isAtMost (c.inside start stop nt) = true) ∧
    (∀ start stop nt depth, IsSpan size start stop → nt < g.numNonterminals → depth ≤ chain →
      ((c.layerEdge start stop nt depth).isSome = true ↔
        (c.layerInside start stop nt depth).isReachable = true) ∧
      ∀ e, c.layerEdge start stop nt depth = some e →
        e.target = ⟨⟨start, stop, nt⟩, depth⟩ ∧ e.inside = c.layerInside start stop nt depth ∧
        e.fom = c.layerFom start stop nt depth) ∧
    (∀ start stop, IsSpan size start stop →
      (c.populated start stop).Nodup ∧
      (∀ nt, nt ∈ c.populated start stop ↔
        nt < g.numNonterminals ∧ (c.inside start stop nt).isReachable = true) ∧
      (c.leftChildren start stop).Sublist (c.populated start stop) ∧
      (c.rightChildren start stop).Sublist (c.populated start stop) ∧
      ∀ nt,
        (nt ∈ c.leftChildren start stop ↔ nt ∈ c.populated start stop ∧
          ∃ id r, id < g.numProductions ∧ (g.production id).expansion = .binary nt r) ∧
        (nt ∈ c.rightChildren start stop ↔ nt ∈ c.populated start stop ∧
          ∃ id l, id < g.numProductions ∧ (g.production id).expansion = .binary l nt)) ∧
    (∀ e, c.HasTarget e.target → c.accepts e = true →
      (∀ start stop nt depth, IsSpan size start stop → nt < g.numNonterminals → depth ≤ chain →
        (c.layerInside start stop nt depth).isAtMost
          ((c.commit g e).2.layerInside start stop nt depth) = true) ∧
      (∀ start stop nt, IsSpan size start stop → nt < g.numNonterminals →
        (c.inside start stop nt).isAtMost ((c.commit g e).2.inside start stop nt) = true) ∧
      ((c.commit g e).1.isNew = true ↔ e.parent ∉ c.populated e.start e.stop) ∧
      ((c.commit g e).1.raised = true ↔
        ((c.commit g e).2.inside e.start e.stop e.parent).improves
          (c.inside e.start e.stop e.parent) = true)) ∧
    (∀ word i, i < size →
      Committed g size chain (fun c e => c.accepts e = true) (c.seed g word i).2) ∧
    ∀ (t : Task) (p : Parser), t.grammar = g → p.CommitsImprovements →
      Committed g t.sentence.size p.maxChain (fun c e => c.accepts e = true)
        (p.parse t).1.chart := by
  have hg := wellFormed_of_build hbuild
  have hcoherent := hc.coherent
  have hslot : ∀ start stop nt, IsSpan size start stop → nt < g.numNonterminals →
      c.HasSlot ⟨start, stop, nt⟩ := fun _ _ _ hspan hnt => hc.hasSlot_iff.2 ⟨hspan, hnt⟩
  have htarget : ∀ start stop nt depth, IsSpan size start stop → nt < g.numNonterminals →
      depth ≤ chain → c.HasTarget ⟨⟨start, stop, nt⟩, depth⟩ :=
    fun _ _ _ _ hspan hnt hdepth => hc.hasTarget_iff.2 ⟨⟨hspan, hnt⟩, hdepth⟩
  have hchain := hc.maxChain_eq
  have hsymbols := hc.symbols_eq
  refine ⟨?_, ?_, ?_, ?_, fun word i hi => hc.seed hg word hi, ?_⟩
  · intro start stop nt hspan hnt
    rw [← hchain]
    exact hcoherent.inside_spec (hslot _ _ _ hspan hnt)
  · intro start stop nt depth hspan hnt hdepth
    have hτ := htarget _ _ _ _ hspan hnt hdepth
    have hiff := hcoherent.edge_iff _ hτ
    have hedge := fun e => hc.records.of_edge (e := e) hτ
    exact ⟨hiff, hedge⟩
  · intro start stop hspan
    rw [← hc.size_eq] at hspan
    rw [← hsymbols]
    exact ⟨hcoherent.nodup _ _ hspan, fun nt => hcoherent.populated_iff _ _ nt hspan,
      hcoherent.lists_spec hg hspan⟩
  · intro e he hacc
    obtain ⟨hscores, hbests⟩ := hcoherent.isAtMost_store he hacc
    obtain ⟨hnew, hraised⟩ := hcoherent.effect_spec he hacc
    simp only [commit_eq, inside_eq, layerInside_eq]
    exact ⟨fun _ _ _ _ hspan hnt hdepth => hscores _ (htarget _ _ _ _ hspan hnt hdepth),
      fun _ _ _ hspan hnt => hbests _ (hslot _ _ _ hspan hnt), hnew, hraised⟩
  · rintro t p rfl himproves
    exact Parser.committed_parse hg himproves

/-- Span-first search over two words fills a slot with two layers, whose best is the slot's
score and whose edges are their own. -/
theorem commits_keep_representation_circular :
    ∃ c e, Committed circularGrammar circularTask.sentence.size 2
        (fun c e => c.accepts e = true) c ∧
      c.inside 0 2 0 = .ofWholeUnits (-9) ∧ c.layerInside 0 2 0 0 = .ofWholeUnits (-9) ∧
      c.unaryDepth 0 2 0 = 0 ∧ c.layerEdge 0 2 0 2 = some e ∧
      (e.target = ⟨⟨0, 2, 0⟩, 2⟩ ∧ e.inside = c.layerInside 0 2 0 2 ∧
        e.fom = c.layerFom 0 2 0 2) ∧
      (c.layerInside 0 2 0 2).isAtMost (c.inside 0 2 0) = true := by
  let p : Parser := .spanFirst { maxChain := 2, maxLocal := 1 }
  have hc := Parser.committed_parse (t := circularTask) (p := p)
    (wellFormed_of_build circularDraft_builds) trivial
  obtain ⟨hslots, hlayers, -⟩ := commits_keep_representation circularDraft_builds hc
  obtain ⟨-, -, hmost⟩ := hslots 0 2 0 (by decide +kernel) (by decide +kernel)
  obtain ⟨-, hedge⟩ := hlayers 0 2 0 2 (by decide +kernel) (by decide +kernel) (Nat.le_refl 2)
  have hsome : ((p.parse circularTask).1.chart.layerEdge 0 2 0 2).isSome = true := by
    decide +kernel
  obtain ⟨e, he⟩ := Option.isSome_iff_exists.1 hsome
  exact ⟨_, e, hc, by decide +kernel, by decide +kernel, by decide +kernel, he, hedge e he,
    hmost 2 (Nat.le_refl 2)⟩

end Chart
end BestParse
