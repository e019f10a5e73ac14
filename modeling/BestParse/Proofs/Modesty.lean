import BestParse.Proofs.BestFirst.Log
import BestParse.Proofs.BottomUp.Log
import BestParse.Proofs.SpanFirst.Log
import BestParse.Proofs.Drift

/-!
# No edge claims more than its children give

An edge is made from the scores that its children have at the time.  It may then wait, and be
committed, and stay in the chart, while other commits raise its children.  If only improving
edges are committed, children never go down, so the edge goes on claiming at most what its
children give (`Improving.modest`).

Here this is said in the terms in which a chart is read (`Edge.Claims`), and of every chart that
a search has on its way: `Parser.chartAfter` replays the beginnings of its log, and wherever the
search rests between its steps it has one of these charts (`Parser.RestsAt`).  Bottom-up search
comes to each layer after the children below it are done, and at its end no edge claims less
either.
-/

namespace BestParse

open Chart

/-- What an edge claims is related to what its production gives over the scores of its children
in a chart: the slots that a binary edge joins, and the layer below a unary edge.  Over a word
there are no children, and the production gives its own score. -/
def Edge.Claims (rel : Score → Score → Prop) (g : Grammar) (c : Chart) (e : Edge) : Prop :=
  match e.left, e.right with
  | none, _ => e.inside = (g.production e.production).logprob
  | some child, none =>
    ∃ depth x, e.layer = depth + 1 ∧
      (c.layerInside e.start e.stop child depth).isReachable = true ∧
      Score.extend (g.production e.production).logprob
        (c.layerInside e.start e.stop child depth) = some x ∧
      rel e.inside x
  | some l, some r =>
    (c.inside e.start e.mid l).isReachable = true ∧
    (c.inside e.mid e.stop r).isReachable = true ∧
    ∃ x, Score.combine (g.production e.production).logprob (c.inside e.start e.mid l)
        (c.inside e.mid e.stop r) = some x ∧
      rel e.inside x

variable {t : Task} {chain : Nat} {c : Chart} {e : Edge} {rel : Score → Score → Prop}

/-- The children of a licensed edge are those of its production. -/
theorem Edge.Licensed.claims (he : e.Licensed t chain)
    (hword : e.kind = .lexical → e.inside = (t.grammar.production e.production).logprob)
    {x : Score} (hx : e.scoreOver? t.grammar c = some x) (hrel : rel e.inside x) :
    e.Claims rel t.grammar c := by
  rw [he.kind_eq] at hword
  unfold Edge.scoreOver? at hx
  unfold Edge.Claims
  rw [he.left_eq, he.right_eq]
  cases hexp : (t.grammar.production e.production).expansion with
  | lexical word =>
      rw [hexp] at hword
      exact hword rfl
  | unary child =>
      obtain ⟨-, hpos, -⟩ := he.fits_of hexp
      rw [hexp] at hx
      obtain ⟨hreach, -⟩ := Score.extend_eq_some_iff.1 hx
      exact ⟨e.layer - 1, x, (Nat.sub_add_cancel hpos).symm, hreach, hx, hrel⟩
  | binary l r =>
      rw [hexp] at hx
      obtain ⟨hleft, hright, -⟩ := Score.combine_eq_some_iff.1 hx
      exact ⟨hleft, hright, x, hx, hrel⟩

namespace Chart

/-- An edge over a word has the score of its production. -/
theorem Course.inside_of_lexical {gate : Chart → Edge → Prop} {es : List Edge}
    (h : Course t chain gate c es) (hg : t.grammar.WellFormed) {τ : Target} (hτ : c.HasTarget τ)
    (he : (c.layerAt τ).edge = some e) (hkind : e.kind = .lexical) :
    e.inside = (t.grammar.production e.production).logprob := by
  refine (h.forall_edges hg (P := fun e => e.kind = .lexical → e.inside =
    (t.grammar.production e.production).logprob) fun c e hlicensed hscore hkind => ?_).2 τ e hτ he
      hkind
  rw [hlicensed.kind_eq] at hkind
  unfold Edge.scoreOver? at hscore
  cases hexp : (t.grammar.production e.production).expansion with
  | lexical word =>
      rw [hexp] at hscore
      exact (Option.some.inj hscore).symm
  | unary child => rw [hexp] at hkind; cases hkind
  | binary l r => rw [hexp] at hkind; cases hkind

/-- What a stored edge claims is a number, and so is what its children give, which is as much or
more. -/
theorem Improving.claims {es : List Edge} (h : Improving t chain c es)
    (hg : t.grammar.WellFormed) {τ : Target} (hτ : c.HasTarget τ)
    (he : (c.layerAt τ).edge = some e)
    (hrel : ∀ x, e.scoreOver? t.grammar c = some x → e.inside ≠ .nan → x ≠ .nan →
      e.inside.rank ≤ x.rank → rel e.inside x) :
    e.Claims rel t.grammar c := by
  obtain ⟨hlinked, -⟩ := h.linked hg
  have hsound := h.sound hg
  have hlicensed := hlinked.licensed τ e hτ he
  have hnumber : e.inside ≠ .nan := by
    rw [hlinked.inside_eq τ e hτ he]
    exact hsound.coherent.number τ hτ
  obtain ⟨x, hx, hle⟩ := h.modest hg hτ he
  obtain ⟨D, hD, -, hscore⟩ := hsound.attains.exists_derivation hg hlicensed hx
  exact hlicensed.claims (h.inside_of_lexical hg hτ he) hx
    (hrel x hx hnumber (Derivation.score_ne_nan hg hD hscore) hle)

end Chart

/-- At the end of bottom-up search, stored edges claim what their children give. -/
theorem BottomUp.claims_parse (hg : t.grammar.WellFormed) (b : BottomUp) {τ : Target}
    (hτ : (b.parse t).1.chart.HasTarget τ)
    (he : ((b.parse t).1.chart.layerAt τ).edge = some e) :
    e.Claims Score.Agrees t.grammar (b.parse t).1.chart := by
  have hcourse := BottomUp.improving_parse hg b
  obtain ⟨hlinked, -⟩ := hcourse.linked hg
  refine hcourse.claims hg hτ he fun x hx hnumber hx_number hle => ⟨hnumber, hx_number, ?_⟩
  exact Int.le_antisymm hle ((b.exact_parse hg).scoreOver?_le_inside hlinked hg hτ he hx)

namespace Parser

/-- The edges that a parser commits, in order. -/
def commits : Parser → Task → List Edge
  | .bottomUp b, t => b.commits t
  | .bestFirst b, t => b.commits t
  | .spanFirst p, t => p.commits t

/-- The chart that a parser has after its first commits. -/
def chartAfter (p : Parser) (t : Task) (k : Nat) : Chart :=
  (Chart.empty t.grammar t.sentence.size p.maxChain).replay t.grammar ((p.commits t).take k)

/-- The charts that a parser has between its steps, which are words, and then wider cells, turns
or visits. -/
inductive RestsAt (t : Task) : Parser → Chart → Prop where
  | fillingWords (b : BottomUp) {n : Nat} (hn : n ≤ t.sentence.size) :
      RestsAt t (.bottomUp b) ((List.range n).foldl (fun s i => s.fillWord t b.discovery i)
        (BottomUp.State.start t b.maxChain)).progress.chart
  | fillingSpans (b : BottomUp) (n : Nat) :
      RestsAt t (.bottomUp b) (((BottomUp.widerSpans t.sentence.size).take n).foldl
        (fun s span => s.fillSpan t b.discovery span.1 span.2)
        ((BottomUp.State.start t b.maxChain).words t b.discovery)).progress.chart
  | seedingFirst (b : BestFirst) {n : Nat} (hn : n ≤ t.sentence.size) :
      RestsAt t (.bestFirst b)
        ((List.range n).foldl (fun s i => s.seedWord t i) (b.start t)).chart
  | turning (b : BestFirst) {n : Nat} (hn : n ≤ BestFirst.turns t b.maxChain) :
      RestsAt t (.bestFirst b) (b.run t n ((b.start t).seed t b.untilExhausted)).chart
  | seedingSpans (p : SpanFirst) {n : Nat} (hn : n ≤ t.sentence.size) :
      RestsAt t (.spanFirst p) (SpanFirst.words p t n).chart
  | visiting (p : SpanFirst) {n : Nat}
      (hn : n ≤ SpanFirst.turns (SpanFirst.seeded p t).chart) :
      RestsAt t (.spanFirst p) (p.run t n (SpanFirst.seeded p t)).chart

/-- Wherever a parser rests it has made some of its commits, and no other. -/
theorem RestsAt.isStage (hg : t.grammar.WellFormed) {p : Parser} (h : p.RestsAt t c) :
    ∃ k, c = p.chartAfter t k := by
  cases h with
  | fillingWords b hn => exact BottomUp.isStage_words hg b hn
  | fillingSpans b n => exact BottomUp.isStage_spans hg b n
  | seedingFirst b hn => exact BestFirst.isStage_words b hn
  | turning b hn => exact BestFirst.isStage_run b hn
  | seedingSpans p hn => exact SpanFirst.isStage_words hg p hn
  | visiting p hn => exact SpanFirst.isStage_run hg p hn

/-- The log of a parser that commits nothing but improvements leads to the chart it leaves. -/
theorem leads_parse (hg : t.grammar.WellFormed) {p : Parser} (h : p.CommitsImprovements) :
    Leads t p.maxChain (Chart.empty t.grammar t.sentence.size p.maxChain) 0 (p.commits t)
      (p.parse t).1.chart (p.parse t).1.work.committed := by
  cases p with
  | bottomUp b => exact BottomUp.leads_parse hg b
  | bestFirst b => exact BestFirst.leads_parse hg b h
  | spanFirst p => exact SpanFirst.leads_parse hg p

/-- Whatever the order in which a parser commits improvements, in every chart that it has on the
way no stored edge claims more than its children give.  In the chart that bottom-up search leaves
the edges claim just that. -/
theorem edges_claim_no_more {d : Draft} {t : Task} (hbuild : d.build = .ok t.grammar)
    (p : Parser) (hp : p.CommitsImprovements) :
    (p.parse t).1.work.committed = (p.commits t).length ∧
    (p.parse t).1.chart = p.chartAfter t (p.commits t).length ∧
    (∀ c, p.RestsAt t c → ∃ k, c = p.chartAfter t k) ∧
    (∀ k start stop nt depth e, IsSpan t.sentence.size start stop →
      nt < t.grammar.numNonterminals → depth ≤ p.maxChain →
      (p.chartAfter t k).layerEdge start stop nt depth = some e →
      e.target = ⟨⟨start, stop, nt⟩, depth⟩ ∧
      e.Claims (fun claimed given => claimed.isAtMost given = true) t.grammar
        (p.chartAfter t k)) ∧
    ∀ b, p = .bottomUp b → ∀ start stop nt depth e, IsSpan t.sentence.size start stop →
      nt < t.grammar.numNonterminals → depth ≤ p.maxChain →
      (p.parse t).1.chart.layerEdge start stop nt depth = some e →
      e.Claims Score.Agrees t.grammar (p.parse t).1.chart := by
  have hg := wellFormed_of_build hbuild
  have hleads := leads_parse hg hp
  refine ⟨?_, ?_, fun c hc => hc.isStage hg, ?_, ?_⟩
  · rw [hleads.count_eq, Nat.zero_add]
  · rw [chartAfter, List.take_length]
    exact hleads.chart_eq
  · intro k start stop nt depth e hspan hnt hdepth he
    obtain ⟨hand, hcourse⟩ := hleads.along k
    obtain ⟨hlinked, -⟩ := hcourse.linked hg
    have hτ := hlinked.isFor.hasTarget_mk hspan hnt hdepth
    refine ⟨hlinked.target_eq _ e hτ he, hcourse.claims hg hτ he ?_⟩
    exact fun x _ hnumber hx_number hle => Score.isAtMost_iff.2 ⟨hnumber, hx_number, hle⟩
  · rintro b rfl start stop nt depth e hspan hnt hdepth he
    have hfor := ((BottomUp.improving_parse hg b).linked hg).1.isFor
    exact BottomUp.claims_parse hg b (hfor.hasTarget_mk hspan hnt hdepth) he

/-- When a child of the root has been raised and the edge made before is committed at last, the
edge claims two below zero, and its children give one below zero. -/
theorem edges_claim_no_more_late :
    ∃ e, (plainParser.chartAfter lateTask 7).layerEdge 0 3 0 0 = some e ∧
      e.inside = .ofRatio true 2 1 ∧
      Score.combine (lateGrammar.production e.production).logprob
        ((plainParser.chartAfter lateTask 7).inside 0 2 1)
        ((plainParser.chartAfter lateTask 7).inside 2 3 2) = some (.ofRatio true 1 1) ∧
      e.Claims (fun claimed given => claimed.isAtMost given = true) lateGrammar
        (plainParser.chartAfter lateTask 7) := by
  have hroot : ((plainParser.chartAfter lateTask 7).layerEdge 0 3 0 0).map (fun e =>
      (e.inside, Score.combine (lateGrammar.production e.production).logprob
        ((plainParser.chartAfter lateTask 7).inside 0 2 1)
        ((plainParser.chartAfter lateTask 7).inside 2 3 2))) =
      some (.ofRatio true 2 1, some (.ofRatio true 1 1)) := by decide +kernel
  obtain ⟨e, he, hscores⟩ := Option.map_eq_some_iff.1 hroot
  obtain ⟨hinside, hgiven⟩ := Prod.mk.inj hscores
  obtain ⟨-, -, -, hclaims, -⟩ := edges_claim_no_more (t := lateTask) (Draft.build_eq_ok _)
    plainParser rfl
  obtain ⟨-, hmodest⟩ := hclaims 7 0 3 0 0 e (by decide +kernel) (by decide +kernel)
    (Nat.zero_le _) he
  exact ⟨e, he, hinside, hgiven, hmodest⟩

end Parser
end BestParse
