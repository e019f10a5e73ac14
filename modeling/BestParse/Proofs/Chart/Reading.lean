import BestParse.Proofs.Tree
import BestParse.Proofs.Chart.Course

/-!
# Reading trees from charts

`Reads` follows the edges of a chart from a target down to the words: it is what
`Chart.trace` does, without a bound on the steps, and its outcome is a derivation.

In a linked chart every target with an edge reads as a derivation of that target
(`Linked.exists_reads`, `Reads.obeys`).  The steps that `trace` is given suffice, since
every edge leads to lower targets and there are more layers than heights.

The scores need more.  A child may have been raised after its parent's edge was made, and
then the derivation read is better than the score stored.  A region of the chart is
*settled* when edges do not leave it and no edge in it has been overtaken by its own
production.  There the derivation read has the score stored (`Reads.agrees`).
-/

namespace BestParse

/-! ## Sums of scores that agree -/

namespace Score

theorem extend_agrees {logprob child child' x : Score} (hlog : logprob.isFinite = true)
    (hagree : child'.Agrees child) (h : extend logprob child = some x) :
    ∃ x', extend logprob child' = some x' ∧ x'.rank = x.rank := by
  obtain ⟨hnum', hnum, hrank⟩ := hagree
  obtain ⟨x', hx', hle⟩ := extend_mono hlog hnum' (Int.le_of_eq hrank.symm) h
  obtain ⟨x'', hx'', hle'⟩ := extend_mono hlog hnum (Int.le_of_eq hrank) hx'
  cases Option.some.inj (hx''.symm.trans h)
  exact ⟨x', hx', Int.le_antisymm hle' hle⟩

theorem combine_agrees {logprob left left' right right' x : Score}
    (hlog : logprob.isFinite = true) (hleft : left'.Agrees left) (hright : right'.Agrees right)
    (h : combine logprob left right = some x) :
    ∃ x', combine logprob left' right' = some x' ∧ x'.rank = x.rank := by
  obtain ⟨hnuml', hnuml, hrankl⟩ := hleft
  obtain ⟨hnumr', hnumr, hrankr⟩ := hright
  obtain ⟨x', hx', hle⟩ := combine_mono hlog hnuml' hnumr' (Int.le_of_eq hrankl.symm)
    (Int.le_of_eq hrankr.symm) h
  obtain ⟨x'', hx'', hle'⟩ := combine_mono hlog hnuml hnumr (Int.le_of_eq hrankl)
    (Int.le_of_eq hrankr) hx'
  cases Option.some.inj (hx''.symm.trans h)
  exact ⟨x', hx', Int.le_antisymm hle' hle⟩

end Score

namespace Chart

open Edge

/-! ## Following edges -/

/-- The derivation that the edges of a chart show from a target down. -/
inductive Reads (g : Grammar) (c : Chart) : Target → Derivation → Prop where
  | leaf {τ : Target} {e : Edge} {word : WordId} (edge_eq : (c.layerAt τ).edge = some e)
      (expansion_eq : (g.production e.production).expansion = .lexical word) :
      Reads g c τ (.leaf e.production e.start)
  | unary {τ : Target} {e : Edge} {child : NonTerminal} {D : Derivation}
      (edge_eq : (c.layerAt τ).edge = some e)
      (expansion_eq : (g.production e.production).expansion = .unary child)
      (below : Reads g c ⟨⟨e.start, e.stop, child⟩, e.layer - 1⟩ D) :
      Reads g c τ (.unary e.production D)
  | binary {τ : Target} {e : Edge} {l r : NonTerminal} {L R : Derivation}
      (edge_eq : (c.layerAt τ).edge = some e)
      (expansion_eq : (g.production e.production).expansion = .binary l r)
      (left : Reads g c (c.topOf ⟨e.start, e.mid, l⟩) L)
      (right : Reads g c (c.topOf ⟨e.mid, e.stop, r⟩) R) :
      Reads g c τ (.binary e.production L R)

variable {t : Task} {chain : Nat} {c : Chart} {τ : Target}

/-- What is read from a target is a derivation of it. -/
theorem Reads.obeys (h : c.Linked t chain) (hg : t.grammar.WellFormed) {D : Derivation}
    (hreads : c.Reads t.grammar τ D) (hτ : c.HasTarget τ) :
    D.Obeys t chain ∧ D.target t.grammar = τ := by
  induction hreads with
  | @leaf τ e word edge_eq expansion_eq =>
      have hlicensed := h.licensed τ e hτ edge_eq
      obtain ⟨hi, hstop, hlayer, htoken⟩ := hlicensed.fits_of expansion_eq
      refine ⟨⟨hi, hlicensed.production_lt, by rw [htoken, expansion_eq]; rfl⟩, ?_⟩
      rw [← h.target_eq τ e hτ edge_eq, Edge.target, Edge.slot, hstop, hlayer,
        hlicensed.parent_eq]
      rfl
  | @unary τ e child D edge_eq expansion_eq below ih =>
      have hlicensed := h.licensed τ e hτ edge_eq
      obtain ⟨-, hpos, hle, hopen, hallows⟩ := hlicensed.fits_of expansion_eq
      obtain ⟨hD, htarget⟩ := ih (hlicensed.hasTarget_child hg h.isFor expansion_eq)
      injection htarget with hslot hdepth
      injection hslot with hstart hstop hsymbol
      rw [hlicensed.parent_eq, ← hstart, ← hstop] at hallows
      rw [← hstart, ← hstop] at hopen
      have hlayer : D.depth + 1 = e.layer := by omega
      refine ⟨⟨hD, by omega, hlicensed.production_lt, ?_, hopen, hallows⟩, ?_⟩
      · rw [expansion_eq, hsymbol]
      · rw [← h.target_eq τ e hτ edge_eq, Edge.target, Edge.slot, hlicensed.parent_eq, ← hstart,
          ← hstop, ← hlayer]
        rfl
  | @binary τ e l r L R edge_eq expansion_eq left right ihl ihr =>
      have hlicensed := h.licensed τ e hτ edge_eq
      obtain ⟨-, hlayer, hopen, hmid, hallows⟩ := hlicensed.fits_of expansion_eq
      obtain ⟨hl, hr⟩ := hlicensed.hasSlots hg h.isFor expansion_eq
      obtain ⟨hL, htargetl⟩ := ihl ⟨hl, h.shaped.depth_le _ hl⟩
      obtain ⟨hR, htargetr⟩ := ihr ⟨hr, h.shaped.depth_le _ hr⟩
      injection htargetl with hslotl
      injection htargetr with hslotr
      injection hslotl with hstart hmidl hsymboll
      injection hslotr with hmidr hstop hsymbolr
      rw [← hstart, ← hstop] at hopen hmid hallows
      rw [hlicensed.parent_eq] at hallows
      rw [← hmidl] at hmid
      refine ⟨⟨hL, hR, hmidl.trans hmidr.symm, hlicensed.production_lt, ?_, hopen, hmid,
        hallows⟩, ?_⟩
      · rw [expansion_eq, hsymboll, hsymbolr]
      · rw [← h.target_eq τ e hτ edge_eq, Edge.target, Edge.slot, hlicensed.parent_eq, ← hstart,
          ← hstop, hlayer]
        rfl

/-! ## Tracing -/

section

variable {g : Grammar} {s : Sentence} {steps start mid stop layer : Nat} {nt : NonTerminal}
  {e : Edge}

theorem trace_lexical (hedge : c.layerEdge start stop nt layer = some e) (hleft : e.left = none) :
    c.trace g s (steps + 1) start stop nt layer =
      .tree (.leaf (g.nonterminalName nt) (s.word start)) := by
  simp [trace, hedge, hleft]

theorem trace_unary {child : NonTerminal} {tree : Tree}
    (hedge : c.layerEdge start stop nt (layer + 1) = some e) (hleft : e.left = some child)
    (hright : e.right = none) (hchild : c.trace g s steps start stop child layer = .tree tree) :
    c.trace g s (steps + 1) start stop nt (layer + 1) =
      .tree (.node (g.nonterminalName nt) [tree]) := by
  simp [trace, hedge, hleft, hright, hchild]

theorem trace_binary {l r : NonTerminal} {left right : Tree}
    (hedge : c.layerEdge start stop nt layer = some e) (hleft : e.left = some l)
    (hright : e.right = some r) (hspanl : IsSpan c.size start e.mid)
    (hspanr : IsSpan c.size e.mid stop)
    (hl : c.trace g s steps start e.mid l (c.unaryDepth start e.mid l) = .tree left)
    (hr : c.trace g s steps e.mid stop r (c.unaryDepth e.mid stop r) = .tree right) :
    c.trace g s (steps + 1) start stop nt layer =
      .tree (.node (g.nonterminalName nt) [left, right]) := by
  simp [trace, hedge, hleft, hright, hspanl, hspanr, hl, hr]

end

/-- Every target with an edge reads as a derivation, and tracing it finds the tree, given
more steps than the target is high. -/
theorem Linked.exists_reads (h : c.Linked t chain) (hg : t.grammar.WellFormed) (s : Sentence) :
    ∀ (steps : Nat) (τ : Target), c.HasTarget τ → c.Holds τ → τ.height chain < steps →
      ∃ D, c.Reads t.grammar τ D ∧
        c.trace t.grammar s steps τ.slot.start τ.slot.stop τ.slot.symbol τ.layer =
          .tree (D.tree t.grammar s)
  | 0, _, _, _, hlt => absurd hlt (Nat.not_lt_zero _)
  | steps + 1, τ, hτ, hholds, hlt => by
      obtain ⟨e, hedge⟩ := Option.isSome_iff_exists.1 hholds
      have hlicensed := h.licensed τ e hτ hedge
      have htarget := h.target_eq τ e hτ hedge
      -- What the edge leads to is lower, so the steps that remain suffice.
      have hread : ∀ σ ∈ e.below t.grammar c, ∃ D, c.Reads t.grammar σ D ∧
          c.trace t.grammar s steps σ.slot.start σ.slot.stop σ.slot.symbol σ.layer =
            .tree (D.tree t.grammar s) := by
        intro σ hσ
        have hlower := hlicensed.height_below hg h.isFor h.shaped σ hσ
        rw [htarget] at hlower
        exact Linked.exists_reads h hg s steps σ
          (hlicensed.hasTarget_below hg h.isFor h.shaped σ hσ) (h.leads τ e hτ hedge σ hσ)
          (by omega)
      have hleft := hlicensed.left_eq
      have hright := hlicensed.right_eq
      subst htarget
      unfold Edge.below at hread
      change ∃ D, _ ∧ c.trace t.grammar s (steps + 1) e.start e.stop e.parent e.layer = _
      have hlookup : c.layerEdge e.start e.stop e.parent e.layer = some e := hedge
      cases hexp : (t.grammar.production e.production).expansion with
      | lexical w =>
          rw [hexp] at hleft
          refine ⟨_, .leaf hedge hexp, ?_⟩
          rw [trace_lexical hlookup hleft, hlicensed.parent_eq]
          rfl
      | unary child =>
          rw [hexp] at hread hleft hright
          simp only [List.mem_singleton, forall_eq] at hread
          obtain ⟨D, hD, htrace⟩ := hread
          obtain ⟨-, hpos, -⟩ := hlicensed.fits_of hexp
          refine ⟨_, .unary hedge hexp hD, ?_⟩
          rw [← Nat.sub_add_cancel hpos] at hlookup ⊢
          rw [trace_unary hlookup hleft hright htrace, hlicensed.parent_eq]
          rfl
      | binary l r =>
          obtain ⟨hl, hr⟩ := hlicensed.hasSlots hg h.isFor hexp
          rw [hexp] at hread hleft hright
          simp only [List.mem_cons, List.not_mem_nil, or_false, forall_eq_or_imp,
            forall_eq] at hread
          obtain ⟨⟨L, hL, htracel⟩, R, hR, htracer⟩ := hread
          refine ⟨_, .binary hedge hexp hL hR, ?_⟩
          rw [trace_binary hlookup hleft hright hl.1 hr.1 htracel htracer, hlicensed.parent_eq]
          rfl

/-- There are more layers than the root is high. -/
theorem IsFor.height_lt_numLayers (hfor : c.IsFor t chain) (hsized : c.WellSized)
    (hg : t.grammar.WellFormed) {layer : Nat} (hsize : t.sentence.size ≠ 0)
    (hlayer : layer ≤ chain) : Target.height chain ⟨t.root, layer⟩ < c.numLayers + 1 := by
  have hcells : t.sentence.size ≤ Address.cells t.sentence.size := by
    unfold Address.cells
    rw [Nat.le_div_iff_mul_le (by decide)]
    exact Nat.mul_le_mul_left _ (by omega)
  have hsymbols : 1 ≤ t.grammar.numNonterminals := Nat.lt_of_le_of_lt (Nat.zero_le _) hg.start_lt
  have hlayers : t.sentence.size * (chain + 1) ≤ c.numLayers := by
    rw [numLayers, hsized.layers_size, hfor.size_eq, hfor.symbols_eq, hfor.maxChain_eq]
    refine Nat.mul_le_mul_right _ (Nat.le_trans hcells ?_)
    exact Nat.le_mul_of_pos_right _ hsymbols
  have hheight := Address.mul_add_lt (a := t.sentence.size - 1) (b := t.sentence.size)
    (k := chain + 1) (by omega) (Nat.lt_succ_of_le hlayer)
  exact Nat.lt_succ_of_lt (Nat.lt_of_lt_of_le hheight hlayers)

/-- A complete chart reads as a derivation of the root, and another one as nothing. -/
theorem Linked.traceRoot_eq (h : c.Linked t chain) (hg : t.grammar.WellFormed) (s : Sentence) :
    (c.isComplete t.grammar = true → ∃ D, c.Reads t.grammar (c.topOf t.root) D ∧
      c.HasTarget (c.topOf t.root) ∧ c.traceRoot t.grammar s = .tree (D.tree t.grammar s)) ∧
    (c.isComplete t.grammar = false → c.traceRoot t.grammar s = .missing) := by
  constructor
  · intro hcomplete
    obtain ⟨hsize, hpopulated⟩ := Bool.and_eq_true_iff.1 hcomplete
    rw [decide_eq_true_iff, h.isFor.size_eq] at hsize
    have hroot := h.isFor.hasSlot_root hg hsize
    have htop : c.HasTarget (c.topOf t.root) := ⟨hroot, h.shaped.depth_le _ hroot⟩
    have hholds : c.Holds (c.topOf t.root) := by
      rw [h.isFor.size_eq] at hpopulated
      exact hpopulated
    have hheight := h.isFor.height_lt_numLayers h.shaped.sized hg hsize
      (Nat.le_trans htop.2 (Nat.le_of_eq h.isFor.maxChain_eq))
    obtain ⟨D, hreads, htrace⟩ := h.exists_reads hg s _ _ htop hholds hheight
    refine ⟨D, hreads, htop, ?_⟩
    rw [traceRoot, if_pos hcomplete, h.isFor.size_eq]
    exact htrace
  · intro hincomplete
    rw [traceRoot, hincomplete]
    rfl

/-! ## The score of what is read -/

/-- A region in which every edge has the present score of its production, and which edges do
not leave. -/
structure SettledOn (g : Grammar) (c : Chart) (region : Target → Prop) : Prop where
  modest : ∀ τ e, c.HasTarget τ → region τ → (c.layerAt τ).edge = some e → c.Modest g e
  scoreOver?_le : ∀ τ e x, c.HasTarget τ → region τ → (c.layerAt τ).edge = some e →
    e.scoreOver? g c = some x → x.rank ≤ e.inside.rank
  closed : ∀ τ e, c.HasTarget τ → region τ → (c.layerAt τ).edge = some e →
    ∀ σ ∈ e.below g c, region σ

theorem SettledOn.scoreOver?_eq {g : Grammar} {region : Target → Prop} (h : c.SettledOn g region)
    (hτ : c.HasTarget τ) (hregion : region τ) {e : Edge} (hedge : (c.layerAt τ).edge = some e) :
    ∃ x, e.scoreOver? g c = some x ∧ x.rank = e.inside.rank := by
  obtain ⟨x, hx, hle⟩ := h.modest τ e hτ hregion hedge
  exact ⟨x, hx, Int.le_antisymm (h.scoreOver?_le τ e x hτ hregion hedge hx) hle⟩

/-- The derivation read from a settled region has the score that is stored. -/
theorem Reads.agrees (h : c.Linked t chain) (hsound : c.Sound t chain)
    (hg : t.grammar.WellFormed) {region : Target → Prop}
    (hsettled : c.SettledOn t.grammar region) {D : Derivation} (hreads : c.Reads t.grammar τ D)
    (hτ : c.HasTarget τ) (hregion : region τ) :
    ∃ x, D.score t.grammar = some x ∧ x.Agrees (c.scoreAt τ) := by
  have htight : ∀ τ e, c.HasTarget τ → region τ → (c.layerAt τ).edge = some e →
      ∃ x, e.scoreOver? t.grammar c = some x ∧ x.rank = (c.scoreAt τ).rank := by
    intro τ e hτ hregion hedge
    rw [← h.inside_eq τ e hτ hedge]
    exact hsettled.scoreOver?_eq hτ hregion hedge
  have hnumber : ∀ τ D y, c.Reads t.grammar τ D → c.HasTarget τ → D.score t.grammar = some y →
      y.rank = (c.scoreAt τ).rank → y.Agrees (c.scoreAt τ) := fun τ D y hreads hτ hy hrank =>
    ⟨Derivation.score_ne_nan hg (hreads.obeys h hg hτ).1 hy, hsound.coherent.number τ hτ, hrank⟩
  induction hreads with
  | @leaf τ e word edge_eq expansion_eq =>
      obtain ⟨x, hx, hrank⟩ := htight τ e hτ hregion edge_eq
      simp only [Edge.scoreOver?, expansion_eq, Option.some.injEq] at hx
      subst hx
      exact ⟨_, rfl, hnumber _ _ _ (.leaf edge_eq expansion_eq) hτ rfl hrank⟩
  | @unary τ e child D edge_eq expansion_eq below ih =>
      have hlicensed := h.licensed τ e hτ edge_eq
      have hfinite := hg.finite _ hlicensed.production_lt
      have hregion' := hsettled.closed τ e hτ hregion edge_eq
      simp only [Edge.below, expansion_eq, List.mem_singleton, forall_eq] at hregion'
      obtain ⟨y, hy, hagree⟩ := ih (hlicensed.hasTarget_child hg h.isFor expansion_eq) hregion'
      obtain ⟨x, hx, hrank⟩ := htight τ e hτ hregion edge_eq
      simp only [Edge.scoreOver?, expansion_eq] at hx
      obtain ⟨x', hx', hrank'⟩ := Score.extend_agrees hfinite hagree hx
      have hscore := Derivation.score_unary_eq_some.2 ⟨y, hy, hx'⟩
      exact ⟨x', hscore, hnumber _ _ _ (.unary edge_eq expansion_eq below) hτ hscore
        (hrank'.trans hrank)⟩
  | @binary τ e l r L R edge_eq expansion_eq left right ihl ihr =>
      have hlicensed := h.licensed τ e hτ edge_eq
      have hfinite := hg.finite _ hlicensed.production_lt
      obtain ⟨hl, hr⟩ := hlicensed.hasSlots hg h.isFor expansion_eq
      have hregion' := hsettled.closed τ e hτ hregion edge_eq
      simp only [Edge.below, expansion_eq, List.mem_cons, List.not_mem_nil, or_false,
        forall_eq_or_imp, forall_eq] at hregion'
      obtain ⟨y, hy, hagreel⟩ := ihl (hsound.coherent.hasTarget_topOf hl) hregion'.1
      obtain ⟨z, hz, hagreer⟩ := ihr (hsound.coherent.hasTarget_topOf hr) hregion'.2
      rw [← hsound.coherent.best_eq _ hl] at hagreel
      rw [← hsound.coherent.best_eq _ hr] at hagreer
      obtain ⟨x, hx, hrank⟩ := htight τ e hτ hregion edge_eq
      simp only [Edge.scoreOver?, expansion_eq] at hx
      obtain ⟨x', hx', hrank'⟩ := Score.combine_agrees hfinite hagreel hagreer hx
      have hscore := Derivation.score_binary_eq_some.2 ⟨y, z, hy, hz, hx'⟩
      exact ⟨x', hscore, hnumber _ _ _ (.binary edge_eq expansion_eq left right) hτ hscore
        (hrank'.trans hrank)⟩

/-- If no stored edge claims more than its children give, the derivation that is read scores at
least what is stored. -/
theorem Reads.scoreAt_le (h : c.Linked t chain) (hsound : c.Sound t chain)
    (hg : t.grammar.WellFormed)
    (hmodest : ∀ τ e, c.HasTarget τ → (c.layerAt τ).edge = some e → c.Modest t.grammar e)
    {D : Derivation} (hreads : c.Reads t.grammar τ D) (hτ : c.HasTarget τ) :
    ∃ x, D.score t.grammar = some x ∧ (c.scoreAt τ).rank ≤ x.rank := by
  have hstored : ∀ τ e, c.HasTarget τ → (c.layerAt τ).edge = some e →
      ∃ x, e.scoreOver? t.grammar c = some x ∧ (c.scoreAt τ).rank ≤ x.rank := by
    intro τ e hτ hedge
    rw [← h.inside_eq τ e hτ hedge]
    exact hmodest τ e hτ hedge
  have hnumber : ∀ τ D y, c.Reads t.grammar τ D → c.HasTarget τ → D.score t.grammar = some y →
      y ≠ .nan := fun τ D y hreads hτ hy =>
    Derivation.score_ne_nan hg (hreads.obeys h hg hτ).1 hy
  induction hreads with
  | @leaf τ e word edge_eq expansion_eq =>
      obtain ⟨x, hx, hle⟩ := hstored τ e hτ edge_eq
      simp only [Edge.scoreOver?, expansion_eq] at hx
      exact ⟨x, hx, hle⟩
  | @unary τ e child D edge_eq expansion_eq below ih =>
      have hlicensed := h.licensed τ e hτ edge_eq
      have hchild := hlicensed.hasTarget_child hg h.isFor expansion_eq
      obtain ⟨y, hy, hley⟩ := ih hchild
      obtain ⟨x, hx, hle⟩ := hstored τ e hτ edge_eq
      simp only [Edge.scoreOver?, expansion_eq] at hx
      obtain ⟨x', hx', hle'⟩ := Score.extend_mono (hg.finite _ hlicensed.production_lt)
        (hnumber _ _ _ below hchild hy) hley hx
      exact ⟨x', Derivation.score_unary_eq_some.2 ⟨y, hy, hx'⟩, Int.le_trans hle hle'⟩
  | @binary τ e l r L R edge_eq expansion_eq left right ihl ihr =>
      have hlicensed := h.licensed τ e hτ edge_eq
      obtain ⟨hl, hr⟩ := hlicensed.hasSlots hg h.isFor expansion_eq
      have htopl := hsound.coherent.hasTarget_topOf hl
      have htopr := hsound.coherent.hasTarget_topOf hr
      obtain ⟨y, hy, hley⟩ := ihl htopl
      obtain ⟨z, hz, hlez⟩ := ihr htopr
      rw [← hsound.coherent.best_eq _ hl] at hley
      rw [← hsound.coherent.best_eq _ hr] at hlez
      obtain ⟨x, hx, hle⟩ := hstored τ e hτ edge_eq
      simp only [Edge.scoreOver?, expansion_eq] at hx
      obtain ⟨x', hx', hle'⟩ := Score.combine_mono (hg.finite _ hlicensed.production_lt)
        (hnumber _ _ _ left htopl hy) (hnumber _ _ _ right htopr hz) hley hlez hx
      exact ⟨x', Derivation.score_binary_eq_some.2 ⟨y, z, hy, hz, hx'⟩, Int.le_trans hle hle'⟩

/-! ## The tree of the root -/

section

variable {words : Array String}

theorem tree?_eq_some {s : Sentence} {g : Grammar} {tree : Tree}
    (h : c.traceRoot g s = .tree tree) : c.tree? g s = some tree := by
  rw [tree?, h]

/-- The tree of a linked chart exists when the chart is complete, and then it is a derivation
of the sentence from the start symbol. -/
theorem Linked.tree_valid (h : c.Linked t chain) (hg : t.grammar.WellFormed)
    (hsentence : t.sentence = .ofWords t.grammar words) :
    c.traceRoot t.grammar t.sentence ≠ .broken ∧
    ((c.tree? t.grammar t.sentence).isSome = true ↔ c.outcome t.grammar = .parsed) ∧
    ∀ tree, c.tree? t.grammar t.sentence = some tree →
      tree.label = t.grammar.nonterminalName t.grammar.start ∧ tree.words = words.toList ∧
      tree.IsDerivation t.grammar ∧ tree.longestRun ≤ chain := by
  obtain ⟨hreads, hmissing⟩ := h.traceRoot_eq hg t.sentence
  cases hcomplete : c.isComplete t.grammar with
  | false =>
      have htrace := hmissing hcomplete
      simp [tree?, htrace, outcome, hcomplete]
  | true =>
      obtain ⟨D, hD, htop, htrace⟩ := hreads hcomplete
      obtain ⟨hobeys, htarget⟩ := hD.obeys h hg htop
      injection htarget with hslot
      injection hslot with hstart hstop hsymbol
      have htree := tree?_eq_some htrace
      refine ⟨by simp [htrace], by simp [htree, outcome, hcomplete], fun tree hsome => ?_⟩
      cases htree.symm.trans hsome
      refine ⟨?_, Derivation.words_tree_of_root hsentence hobeys hstart hstop,
        Derivation.isDerivation_tree hsentence hobeys, Derivation.longestRun_tree hobeys⟩
      rw [Derivation.label_tree, hsymbol]

/-- The score of a complete chart is that of the root's best layer. -/
theorem Sound.rootInside_eq (h : c.Sound t chain) (hcomplete : c.isComplete t.grammar = true)
    (htop : c.HasTarget (c.topOf t.root)) :
    c.rootInside t.grammar = c.scoreAt (c.topOf t.root) := by
  have hsize : t.sentence.size ≠ 0 := by
    intro hzero
    simp [isComplete, h.isFor.size_eq, hzero] at hcomplete
  rw [h.isFor.rootInside_eq hsize, h.coherent.best_eq t.root htop.1]

section

variable {d : Draft} (hbuild : d.build = .ok t.grammar)
  (hsentence : t.sentence = .ofWords t.grammar words)
  (hcomplete : c.isComplete t.grammar = true)

include hbuild hsentence hcomplete

/-- A complete chart has a tree, with the score of the derivation that is read from the root. -/
theorem Linked.exists_tree (h : c.Linked t chain) {P : Score → Prop}
    (hread : ∀ D, c.Reads t.grammar (c.topOf t.root) D → c.HasTarget (c.topOf t.root) →
      ∃ x, D.score t.grammar = some x ∧ P x) :
    ∃ tree x, c.tree? t.grammar t.sentence = some tree ∧ tree.score t.grammar = some x ∧ P x := by
  have hg := wellFormed_of_build hbuild
  obtain ⟨D, hD, htop, htrace⟩ := (h.traceRoot_eq hg t.sentence).1 hcomplete
  obtain ⟨x, hx, hPx⟩ := hread D hD htop
  exact ⟨_, x, tree?_eq_some htrace,
    Derivation.score_tree hbuild hsentence (hD.obeys h hg htop).1 hx, hPx⟩

/-- The tree of a sound chart has the score of the root, if the root lies in a settled
region. -/
theorem Linked.tree_attains (h : c.Linked t chain) (hsound : c.Sound t chain)
    {region : Target → Prop} (hsettled : c.SettledOn t.grammar region)
    (hroot : region (c.topOf t.root)) :
    ∃ tree x, c.tree? t.grammar t.sentence = some tree ∧ tree.score t.grammar = some x ∧
      x.Agrees (c.rootInside t.grammar) := by
  refine h.exists_tree hbuild hsentence hcomplete fun D hD htop => ?_
  rw [hsound.rootInside_eq hcomplete htop]
  exact hD.agrees h hsound (wellFormed_of_build hbuild) hsettled htop hroot

/-- If only improving edges were committed, the tree scores at least what is reported. -/
theorem Improving.rootInside_le_tree {es : List Edge} (h : Improving t chain c es) :
    ∃ tree x, c.tree? t.grammar t.sentence = some tree ∧ tree.score t.grammar = some x ∧
      (c.rootInside t.grammar).isAtMost x = true := by
  have hg := wellFormed_of_build hbuild
  have hlinked := (h.linked hg).1
  have hsound := h.sound hg
  refine hlinked.exists_tree hbuild hsentence hcomplete fun D hD htop => ?_
  obtain ⟨x, hx, hle⟩ := hD.scoreAt_le hlinked hsound hg (fun _ _ => h.modest hg) htop
  refine ⟨x, hx, Score.isAtMost_iff.2 ?_⟩
  rw [hsound.rootInside_eq hcomplete htop]
  exact ⟨hsound.coherent.number _ htop,
    Derivation.score_ne_nan hg (hD.obeys hlinked hg htop).1 hx, hle⟩

end

end

end Chart
end BestParse
