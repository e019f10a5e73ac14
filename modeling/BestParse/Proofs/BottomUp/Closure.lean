import BestParse.Proofs.BottomUp.Walk

/-!
# What the unary passes compute

The layers of a span hold the best chains of unary productions, sorted by their length
(`unaryPasses_closure`).  After the passes, the score of a symbol in layer `d` is the greatest that
a chain of exactly `d` productions gives it, from the scores of layer zero on and with the innermost
production added first.  It is unreachable when no chain reaches it.

There are three steps.

* A pass raises the blank layer that it aims at to the best of one production more
  (`isGreatestOf_unaryPass`).
* The best over chains is taken one production at a time (`isGreatestOf_chainScore_succ`).  This is
  where rounding enters: rounded sums are monotone, so that the best chain ends in a best chain.
* A pass without a commit has left its layer blank, and above a blank layer no chain is reachable
  (`Closed.of_blank`).  So the passes may end there.

A second run finds each edge over layer zero no better than layer one and commits nothing.
-/

namespace BestParse

/-- The greatest of some scores, unreachable if none of them is above that. -/
structure Score.IsGreatestOf (among : Score → Prop) (best : Score) : Prop where
  upper : ∀ x, among x → x.isAtMost best = true
  attained : best = .unreachable ∨ among best

namespace BottomUp

open Chart

/-! ## Chains -/

/-- A chain of unary productions over a span, the topmost first, from a symbol down to the bottom.
All its parents are allowed there. -/
inductive UnaryChain (g : Grammar) (limits : Limits) (start stop : Nat) (bottom : NonTerminal) :
    NonTerminal → List ProductionId → Prop where
  | nil : UnaryChain g limits start stop bottom bottom []
  | cons {id : ProductionId} {child : NonTerminal} {ids : List ProductionId}
      (known : id < g.numProductions) (unary : (g.production id).expansion = .unary child)
      (allowed : limits.allows g start stop (g.production id).parent = true)
      (rest : UnaryChain g limits start stop bottom child ids) :
      UnaryChain g limits start stop bottom (g.production id).parent (id :: ids)

/-- The score of a chain over a score at its bottom.  The innermost production is added first. -/
def chainScore (g : Grammar) (ids : List ProductionId) (base : Score) : Score :=
  ids.foldr (fun id x => (g.production id).logprob + x) base

/-- The scores that chains of a length give a symbol. -/
def ChainScore (g : Grammar) (limits : Limits) (start stop : Nat) (base : NonTerminal → Score)
    (length : Nat) (top : NonTerminal) (x : Score) : Prop :=
  ∃ bottom ids, UnaryChain g limits start stop bottom top ids ∧ ids.length = length ∧
    x = chainScore g ids (base bottom)

/-- The scores that one production gives a symbol. -/
def StepScore (g : Grammar) (limits : Limits) (start stop : Nat) (below : NonTerminal → Score)
    (top : NonTerminal) (x : Score) : Prop :=
  ∃ id child, id < g.numProductions ∧ (g.production id).expansion = .unary child ∧
    (g.production id).parent = top ∧ limits.allows g start stop top = true ∧
    x = (g.production id).logprob + below child

variable {g : Grammar} {limits : Limits} {size chain start stop : Nat}
  {base below : NonTerminal → Score} {top : NonTerminal} {best : Score}

theorem logprob_add_negInf (hg : g.WellFormed) {id : ProductionId} (hid : id < g.numProductions) :
    (g.production id).logprob + Score.negInf = .negInf := by
  rw [Score.add_comm]
  refine Score.negInf_add ?_
  rw [Score.add_comm]
  exact Score.finite_add_ne_nan (hg.finite id hid) nofun

/-- No production is needed for a chain of length zero. -/
theorem isGreatestOf_chainScore_zero (h : base top ≠ .nan) :
    Score.IsGreatestOf (ChainScore g limits start stop base 0 top) (base top) where
  upper := by
    rintro x ⟨bottom, ids, hchain, hlength, rfl⟩
    cases hchain with
    | nil => exact Score.isAtMost_iff.2 ⟨h, h, Int.le_refl _⟩
    | cons => cases hlength
  attained := Or.inr ⟨top, [], .nil, rfl, rfl⟩

/-- The best chains that are longer by one are the best productions over best chains. -/
theorem isGreatestOf_chainScore_succ (hg : g.WellFormed) {length : Nat}
    (hbelow : ∀ nt < g.numNonterminals,
      Score.IsGreatestOf (ChainScore g limits start stop base length nt) (below nt))
    (h : Score.IsGreatestOf (StepScore g limits start stop below top) best) :
    Score.IsGreatestOf (ChainScore g limits start stop base (length + 1) top) best where
  upper := by
    rintro x ⟨bottom, ids, hchain, hlength, rfl⟩
    cases hchain with
    | nil => cases hlength
    | @cons id child ids known unary allowed rest =>
        have hscoped := hg.children_scoped id known
        rw [unary] at hscoped
        obtain ⟨hnumber, -, hle⟩ := Score.isAtMost_iff.1
          ((hbelow child hscoped).upper _ ⟨bottom, ids, rest, Nat.succ.inj hlength, rfl⟩)
        have hsum := Score.finite_add_ne_nan (hg.finite id known) hnumber
        have hstep := Score.isAtMost_iff.1
          (h.upper _ ⟨id, child, known, unary, rfl, allowed, rfl⟩)
        exact Score.isAtMost_iff.2 ⟨hsum, hstep.2.1,
          Int.le_trans (Score.rank_add_le_add hsum (Int.le_refl _) hle) hstep.2.2⟩
  attained := by
    rcases h.attained with hnone | ⟨id, child, known, unary, rfl, allowed, rfl⟩
    · exact Or.inl hnone
    · have hscoped := hg.children_scoped id known
      rw [unary] at hscoped
      rcases (hbelow child hscoped).attained with hblank | ⟨bottom, ids, rest, hlength, hscore⟩
      · rw [hblank]
        exact Or.inl (logprob_add_negInf hg known)
      · refine Or.inr ⟨bottom, id :: ids, .cons known unary allowed rest, ?_, ?_⟩
        · rw [List.length_cons, hlength]
        · rw [hscore]
          rfl

/-- One production over unreachable scores reaches nothing. -/
theorem isGreatestOf_stepScore_blank (hg : g.WellFormed)
    (hblank : ∀ nt < g.numNonterminals, below nt = .unreachable) :
    Score.IsGreatestOf (StepScore g limits start stop below top) .unreachable where
  upper := by
    rintro x ⟨id, child, known, unary, -, -, rfl⟩
    have hscoped := hg.children_scoped id known
    rw [unary] at hscoped
    rw [hblank child hscoped, Score.unreachable, logprob_add_negInf hg known]
    decide
  attained := Or.inl rfl

/-! ## One pass -/

section

variable {p : Progress} {layer : Nat} (hg : g.WellFormed) (h : p.chart.Improved g size chain)
  (hspan : IsSpan size start stop) (hlayer : layer < chain)

include hg h hspan hlayer

/-- After a pass, no production over the layer below scores more than the layer above. -/
theorem isAtMost_unaryPass {nt : NonTerminal} {x : Score} (hnt : nt < g.numNonterminals)
    (hx : StepScore g limits start stop (p.chart.layerInside start stop · layer) nt x) :
    x.isAtMost ((p.unaryPass g limits start stop layer).2.chart.layerInside start stop nt
      (layer + 1)) = true := by
  obtain ⟨id, child, known, unary, rfl, allowed, rfl⟩ := hx
  have hscoped := hg.children_scoped id known
  rw [unary] at hscoped
  have hchild : p.chart.layerInside start stop child layer ≠ .nan :=
    h.layerInside_ne_nan hspan hscoped (Nat.le_of_lt hlayer)
  refine Score.isAtMost_iff.2 ⟨Score.finite_add_ne_nan (hg.finite id known) hchild,
    (improved_unaryPass limits hg h hspan hlayer).layerInside_ne_nan hspan hnt hlayer, ?_⟩
  show ((g.production id).logprob + p.chart.layerInside start stop child layer).rank ≤ _
  by_cases hreach : (p.chart.layerInside start stop child layer).isReachable = true
  · -- The edge of this production is offered.
    have hmem : Edge.unary g id start stop (layer + 1)
        ((g.production id).logprob + p.chart.layerInside start stop child layer) ∈
        unaryEdges g p.chart start stop layer :=
      (mem_unaryEdges hg).2 ⟨child, id, _,
        h.mem_populated_of_isReachable hspan hscoped (Nat.le_of_lt hlayer) hreach, known, unary,
        Score.extend_eq_some_iff.2 ⟨hreach, rfl⟩, rfl⟩
    have hreached := Progress.le_scoreAt_offerAll h.coherent
      (hasRoomFor_unaryEdges limits hg h hspan hlayer) hmem allowed
    rw [Progress.unaryPass_snd]
    exact hreached
  · have hnone : p.chart.layerInside start stop child layer = .negInf :=
      Score.eq_unreachable_of_not_isReachable hchild hreach
    rw [hnone, logprob_add_negInf hg known]
    exact Score.negInf_rank_le _

/-- What a pass leaves in a blank layer is the score of a production over the layer below, if
anything. -/
theorem stepScore_unaryPass {nt : NonTerminal} (hnt : nt < g.numNonterminals)
    (hblank : p.chart.layerInside start stop nt (layer + 1) = .unreachable) :
    (p.unaryPass g limits start stop layer).2.chart.layerInside start stop nt (layer + 1) =
        .unreachable ∨
      StepScore g limits start stop (p.chart.layerInside start stop · layer) nt
        ((p.unaryPass g limits start stop layer).2.chart.layerInside start stop nt
          (layer + 1)) := by
  have hτ : p.chart.HasTarget ⟨⟨start, stop, nt⟩, layer + 1⟩ :=
    h.hasTarget_iff.2 ⟨⟨hspan, hnt⟩, hlayer⟩
  rw [unaryPass_chart]
  rcases (aims_offerCommits_unaryEdges limits hg h hspan hlayer).scoreAt_replay (g := g)
    h.shaped.sized hτ with hsame | ⟨e, he, htarget, hscore⟩
  · exact Or.inl (hsame.trans hblank)
  · obtain ⟨hmem, hallows⟩ := Progress.mem_offerCommits he
    obtain ⟨child, id, x, -, known, unary, hx, rfl⟩ := (mem_unaryEdges hg).1 hmem
    have hparent : (g.production id).parent = nt := congrArg (fun τ => τ.slot.symbol) htarget
    subst hparent
    exact Or.inr ⟨id, child, known, unary, rfl, hallows,
      hscore.trans (Score.extend_eq_some_iff.1 hx).2.symm⟩

/-- A pass raises a blank layer to the best of one production over the layer below. -/
theorem isGreatestOf_unaryPass {nt : NonTerminal} (hnt : nt < g.numNonterminals)
    (hblank : p.chart.layerInside start stop nt (layer + 1) = .unreachable) :
    Score.IsGreatestOf
      (StepScore g limits start stop (p.chart.layerInside start stop · layer) nt)
      ((p.unaryPass g limits start stop layer).2.chart.layerInside start stop nt (layer + 1)) where
  upper _ hx := isAtMost_unaryPass hg h hspan hlayer hnt hx
  attained := stepScore_unaryPass hg h hspan hlayer hnt hblank

/-- A pass leaves the other layers of its span as they are. -/
theorem layerInside_unaryPass {nt : NonTerminal} (hnt : nt < g.numNonterminals) {depth : Nat}
    (hdepth : depth ≤ chain) (hne : depth ≠ layer + 1) :
    (p.unaryPass g limits start stop layer).2.chart.layerInside start stop nt depth =
      p.chart.layerInside start stop nt depth := by
  rw [unaryPass_chart]
  exact congrArg Layer.inside
    ((aims_offerCommits_unaryEdges limits hg h hspan hlayer).layerAt_replay h.shaped.sized
      (τ := ⟨⟨start, stop, nt⟩, depth⟩) (h.hasTarget_iff.2 ⟨⟨hspan, hnt⟩, hdepth⟩)
      fun hwithin => hne hwithin.2)

end

/-! ## All passes -/

/-- The layers of a span up to some depth hold the best chains over a base, and those above are
blank. -/
structure Closed (g : Grammar) (limits : Limits) (chain start stop : Nat)
    (base : NonTerminal → Score) (depth : Nat) (c : Chart) : Prop where
  greatest : ∀ nt < g.numNonterminals, ∀ layer ≤ depth,
    Score.IsGreatestOf (ChainScore g limits start stop base layer nt)
      (c.layerInside start stop nt layer)
  blank : ∀ nt < g.numNonterminals, ∀ layer, depth < layer → layer ≤ chain →
    c.layerInside start stop nt layer = .unreachable

namespace Closed

variable {c : Chart} {depth : Nat}

/-- Where nothing is committed above layer zero, layer zero is closed over itself. -/
theorem of_empty (limits : Limits) (h : c.Improved g size chain) (hspan : IsSpan size start stop)
    (hempty : ∀ nt < g.numNonterminals, ∀ layer, 0 < layer → layer ≤ chain →
      c.layerEdge start stop nt layer = none) :
    Closed g limits chain start stop (c.layerInside start stop · 0) 0 c where
  greatest nt hnt layer hlayer := by
    cases Nat.le_zero.1 hlayer
    exact isGreatestOf_chainScore_zero (h.layerInside_ne_nan hspan hnt (Nat.zero_le chain))
  blank nt hnt layer hlayer hchain :=
    h.layerInside_eq_unreachable hspan hnt hchain (hempty nt hnt layer hlayer hchain)

/-- Above a blank layer, no chain is reachable. -/
theorem of_blank (hg : g.WellFormed) (h : Closed g limits chain start stop base depth c)
    (hblank : ∀ nt < g.numNonterminals, c.layerInside start stop nt depth = .unreachable) :
    ∀ {above : Nat}, depth ≤ above → above ≤ chain →
      Closed g limits chain start stop base above c
  | 0, hdepth, _ => by
      cases Nat.le_zero.1 hdepth
      exact h
  | above + 1, hdepth, habove => by
      rcases Nat.lt_or_eq_of_le hdepth with hlt | rfl
      · have hbelow := of_blank hg h hblank (Nat.le_of_lt_succ hlt) (Nat.le_of_succ_le habove)
        refine ⟨fun nt hnt layer hlayer => ?_, fun nt hnt layer hlayer => h.blank nt hnt layer
          (Nat.lt_trans hlt hlayer)⟩
        rcases Nat.lt_or_eq_of_le hlayer with hlower | rfl
        · exact hbelow.greatest nt hnt layer (Nat.le_of_lt_succ hlower)
        · rw [h.blank nt hnt (above + 1) hlt habove]
          refine isGreatestOf_chainScore_succ hg
            (fun nt hnt => hbelow.greatest nt hnt above (Nat.le_refl above))
            (isGreatestOf_stepScore_blank hg fun nt hnt => ?_)
          rcases Nat.lt_or_eq_of_le (Nat.le_of_lt_succ hlt) with hinside | rfl
          · exact h.blank nt hnt above hinside (Nat.le_of_succ_le habove)
          · exact hblank nt hnt
      · exact h

section

variable {p : Progress} (hg : g.WellFormed) (hspan : IsSpan size start stop)

include hg hspan

/-- A pass closes one layer more. -/
theorem unaryPass {layer : Nat} (h : p.chart.Improved g size chain) (hlayer : layer < chain)
    (hclosed : Closed g limits chain start stop base layer p.chart) :
    Closed g limits chain start stop base (layer + 1)
      (p.unaryPass g limits start stop layer).2.chart where
  greatest nt hnt depth hdepth := by
    rcases Nat.lt_or_eq_of_le hdepth with hlower | rfl
    · rw [layerInside_unaryPass hg h hspan hlayer hnt (by omega) (by omega)]
      exact hclosed.greatest nt hnt depth (Nat.le_of_lt_succ hlower)
    · exact isGreatestOf_chainScore_succ hg
        (fun nt hnt => hclosed.greatest nt hnt layer (Nat.le_refl layer))
        (isGreatestOf_unaryPass hg h hspan hlayer hnt
          (hclosed.blank nt hnt (layer + 1) (Nat.lt_succ_self layer) hlayer))
  blank nt hnt depth hdepth hchain := by
    rw [layerInside_unaryPass hg h hspan hlayer hnt hchain (by omega)]
    exact hclosed.blank nt hnt depth (Nat.lt_of_succ_lt hdepth) hchain

/-- The passes from a layer on close all layers. -/
theorem unaryPassesFrom : ∀ (passes layer : Nat) {p : Progress}, layer + passes = chain →
    p.chart.Improved g size chain → Closed g limits chain start stop base layer p.chart →
    Closed g limits chain start stop base chain
      (p.unaryPassesFrom g limits start stop passes layer).chart
  | 0, layer, p, hchain, _, hclosed => by
      cases hchain
      exact hclosed
  | passes + 1, layer, p, hchain, h, hclosed => by
      have hlayer : layer < chain := by omega
      have hpass := hclosed.unaryPass hg hspan h hlayer
      simp only [Progress.unaryPassesFrom]
      split
      · exact unaryPassesFrom passes (layer + 1) (by omega)
          (improved_unaryPass limits hg h hspan hlayer) hpass
      · next hno =>
        -- Nothing was committed, so that the layer is as blank as before the pass.
        have hsame := Progress.unaryPass_chart_of_unchanged (Bool.not_eq_true _ ▸ hno)
        refine hpass.of_blank hg (fun nt hnt => ?_) hlayer (Nat.le_refl chain)
        rw [hsame]
        exact hclosed.blank nt hnt (layer + 1) (Nat.lt_succ_self layer) hlayer

end

end Closed

/-! ## A second run -/

/-- Offers that their layers reach already commit nothing. -/
theorem offerCommits_eq_nil {es : List Edge} {p : Progress}
    (hes : ∀ e ∈ es, limits.allows g e.start e.stop e.parent = true →
      p.chart.accepts e = false) :
    p.offerCommits g limits es = [] := by
  induction es generalizing p with
  | nil => rfl
  | cons e es ih =>
      obtain ⟨hfirst, hrest⟩ := List.forall_mem_cons.1 hes
      have hdeclined : (p.offer g limits e).1 = false := by
        rw [Progress.offer_fst]
        cases hallows : limits.allows g e.start e.stop e.parent with
        | false => exact Bool.and_false _
        | true => rw [hfirst hallows]; rfl
      have hsame : (p.offer g limits e).2.chart = p.chart := by
        rw [Progress.offer_chart, hdeclined]
        rfl
      show (p.offerCommit? g limits e).toList ++
        (p.offer g limits e).2.offerCommits g limits es = []
      rw [ih (by rw [hsame]; exact hrest), Progress.offerCommit?, hdeclined]
      rfl

/-- Over closed layers a pass commits nothing. -/
theorem Closed.unaryPass_chart (hg : g.WellFormed) {p : Progress} {layer : Nat}
    (hlayer : layer < chain)
    (hclosed : Closed g limits chain start stop base chain p.chart) :
    (p.unaryPass g limits start stop layer).2.chart = p.chart := by
  rw [BottomUp.unaryPass_chart, offerCommits_eq_nil]
  · rfl
  intro e he hallows
  obtain ⟨child, id, x, -, known, unary, hx, rfl⟩ := (mem_unaryEdges hg).1 he
  obtain ⟨hreach, rfl⟩ := Score.extend_eq_some_iff.1 hx
  have hscoped := hg.children_scoped id known
  rw [unary] at hscoped
  rcases (hclosed.greatest child hscoped layer (Nat.le_of_lt hlayer)).attained with
    hblank | ⟨bottom, ids, rest, hlength, hscore⟩
  · exact absurd hblank (Score.isReachable_iff.1 hreach).2
  · -- The edge is the last step of a chain, so that its layer is at least as good.
    have hle := (hclosed.greatest _ (hg.parent_lt id known) (layer + 1) hlayer).upper _
      ⟨bottom, id :: ids, .cons known unary hallows rest, congrArg (· + 1) hlength, rfl⟩
    have hedge : (g.production id).logprob + p.chart.layerInside start stop child layer =
        chainScore g (id :: ids) (base bottom) := by
      rw [hscore]
      rfl
    show Score.improves ((g.production id).logprob + p.chart.layerInside start stop child layer)
      (p.chart.layerInside start stop (g.production id).parent (layer + 1)) = false
    rw [hedge, Bool.eq_false_iff]
    intro himproves
    have hlt := (Score.improves_iff.1 himproves).2.2
    have hge := (Score.isAtMost_iff.1 hle).2.2
    omega

/-- Over closed layers no pass commits anything. -/
theorem Closed.unaryPassesFrom_chart (hg : g.WellFormed) : ∀ (passes layer : Nat) {p : Progress},
    layer + passes = chain → Closed g limits chain start stop base chain p.chart →
    (p.unaryPassesFrom g limits start stop passes layer).chart = p.chart
  | 0, _, _, _, _ => rfl
  | passes + 1, layer, p, hchain, hclosed => by
      have hpass : (p.unaryPass g limits start stop layer).2.chart = p.chart :=
        hclosed.unaryPass_chart hg (by omega)
      simp only [Progress.unaryPassesFrom]
      split
      · rw [Closed.unaryPassesFrom_chart hg passes (layer + 1) (by omega) (hpass ▸ hclosed), hpass]
      · exact hpass

/-! ## The cell -/

/-- Where nothing is committed above layer zero, the unary passes over a span put into each layer
above it the best of the chains of that many productions, over the scores of layer zero.  They
leave layer zero and all other cells as they were, a second run commits nothing, and the loop that
walks over the growing list comes to the same. -/
theorem unaryPasses_closure {d : Draft} {p : Progress} (hbuild : d.build = .ok g)
    (hchart : Committed g size chain (fun c e => c.accepts e = true) p.chart)
    (hspan : IsSpan size start stop) (hopen : limits.unaryOpen start stop = true)
    (hempty : ∀ nt < g.numNonterminals, ∀ layer, 0 < layer → layer ≤ chain →
      p.chart.layerEdge start stop nt layer = none) :
    (∀ nt < g.numNonterminals, ∀ layer, 0 < layer → layer ≤ chain →
      Score.IsGreatestOf
        (ChainScore g limits start stop (p.chart.layerInside start stop · 0) layer nt)
        ((p.unaryPasses g limits start stop).chart.layerInside start stop nt layer)) ∧
    (∀ s e, IsSpan size s e → ∀ nt < g.numNonterminals, ∀ layer ≤ chain,
      (s, e) ≠ (start, stop) ∨ layer = 0 →
      (p.unaryPasses g limits start stop).chart.layer s e nt layer =
        p.chart.layer s e nt layer) ∧
    (∀ s e, IsSpan size s e → (s, e) ≠ (start, stop) →
      (∀ nt < g.numNonterminals,
        (p.unaryPasses g limits start stop).chart.bestOf s e nt = p.chart.bestOf s e nt) ∧
      (p.unaryPasses g limits start stop).chart.cell s e = p.chart.cell s e) ∧
    ((p.unaryPasses g limits start stop).unaryPasses g limits start stop).chart =
      (p.unaryPasses g limits start stop).chart ∧
    ∀ p', WalksPasses g limits start stop chain 0 p p' ↔
      p' = p.unaryPasses g limits start stop := by
  have hg := wellFormed_of_build hbuild
  have hpasses : p.unaryPasses g limits start stop =
      p.unaryPassesFrom g limits start stop chain 0 := by
    rw [Progress.unaryPasses, if_pos hopen, hchart.maxChain_eq]
  have hclosed := (Closed.of_empty limits hchart hspan hempty).unaryPassesFrom hg hspan chain 0
    (Nat.zero_add chain) hchart
  rw [← hpasses] at hclosed
  have hdone := improved_unaryPasses hg hspan hchart limits
  refine ⟨fun nt hnt layer _ hlayer => hclosed.greatest nt hnt layer hlayer, ?_, ?_, ?_, ?_⟩
  · intro s e hse nt hnt layer hlayer hother
    refine layerAt_unaryPasses hg hspan hchart limits (τ := ⟨⟨s, e, nt⟩, layer⟩)
      (hchart.hasTarget_iff.2 ⟨⟨hse, hnt⟩, hlayer⟩) ?_
    rintro ⟨⟨rfl, rfl⟩, habove⟩
    rcases hother with hne | rfl
    · exact hne rfl
    · exact Nat.lt_irrefl 0 habove
  · intro s e hse hne
    exact ⟨fun nt hnt => bestOfSlot_unaryPasses hg hspan hchart limits (x := ⟨s, e, nt⟩)
      (hchart.hasSlot_iff.2 ⟨hse, hnt⟩) hne, cell_unaryPasses hg hspan hchart limits hse hne⟩
  · rw [Progress.unaryPasses, if_pos hopen, hdone.maxChain_eq]
    exact hclosed.unaryPassesFrom_chart hg chain 0 (Nat.zero_add chain)
  · intro p'
    rw [hpasses]
    exact walksPasses_iff hg hspan limits p' chain 0 (Nat.zero_add chain) hchart

/-- Over the first of two words the unary productions form a cycle.  The best chain of three goes
from `S` through both symbols back to `S` and down to `A`, and the word after it has no chains. -/
theorem unaryPasses_closure_circular :
    let p : Progress := ⟨((empty circularGrammar 2 3).seed circularGrammar (some 0) 0).2, {}⟩
    let c := (p.unaryPasses circularGrammar Limits.none 0 1).chart
    Score.IsGreatestOf
        (ChainScore circularGrammar Limits.none 0 1 (p.chart.layerInside 0 1 · 0) 3 0)
        (.ofWholeUnits (-4)) ∧
      c.layerInside 0 1 1 0 = .ofWholeUnits (-2) ∧ c.cell 1 2 = p.chart.cell 1 2 := by
  intro p c
  have hchart : Committed circularGrammar 2 3 (fun c e => c.accepts e = true) p.chart :=
    Committed.start.seed (wellFormed_of_build circularDraft_builds) _ (by decide)
  have hblank : ∀ nt < circularGrammar.numNonterminals, ∀ layer < 4, 0 < layer →
      p.chart.layerEdge 0 1 nt layer = none := by decide +kernel
  obtain ⟨hgreatest, hlayers, hcells, -, -⟩ :=
    unaryPasses_closure circularDraft_builds hchart (show IsSpan 2 0 1 by decide)
      (show Limits.none.unaryOpen 0 1 = true by decide)
      fun nt hnt layer habove hlayer => hblank nt hnt layer (Nat.lt_succ_of_le hlayer) habove
  have hbest := hgreatest 0 (by decide +kernel) 3 (by decide) (Nat.le_refl 3)
  have hvalue : c.layerInside 0 1 0 3 = .ofWholeUnits (-4) := by decide +kernel
  rw [hvalue] at hbest
  refine ⟨hbest, ?_, (hcells 1 2 (by decide) (by decide)).2⟩
  have hsame := hlayers 0 1 (by decide) 1 (by decide +kernel) 0 (by decide) (Or.inr rfl)
  have hseeded : p.chart.layerInside 0 1 1 0 = .ofWholeUnits (-2) := by decide +kernel
  exact (congrArg Layer.inside hsame).trans hseeded

end BottomUp
end BestParse
