import BestParse.Search.BottomUp.Discovery
import BestParse.Proofs.Chart.Extension

/-!
# Filling one cell

Offers extend the chart: each offered edge that the limits allow is reached by its
layer afterwards, whatever coherent chart it is offered to (`le_scoreAt_offerAll`).
Over a cell whose derivations without unary productions at the root are dominated and
whose other layers are blank, the unary passes dominate all the cell's derivations
(`dominates_unaryPasses`).

The early end of the passes is the delicate point.  A pass that commits nothing
leaves its layer blank, so no derivation of that depth has a reachable score and
none that is deeper has a score at all.
-/

namespace BestParse
namespace BottomUp

open Chart

/-- The targets over a span. -/
def OfSpan (start stop : Nat) (τ : Target) : Prop := τ.slot.start = start ∧ τ.slot.stop = stop

variable {t : Task} {chain : Nat} {Q : Target → Prop}

/-! ## Offers -/

/-- An edge that may be offered: where the limits allow it, it is supported. -/
structure Offerable (t : Task) (chain : Nat) (within : Target → Prop) (e : Edge) : Prop where
  number : e.inside ≠ .nan
  supported : t.limits.allows t.grammar e.start e.stop e.parent = true → e.Supported t chain
  within : within e.target

namespace Progress

theorem offer_fst (g : Grammar) (limits : Limits) (p : Progress) (e : Edge) :
    (p.offer g limits e).1 = (p.chart.accepts e && limits.allows g e.start e.stop e.parent) := by
  unfold offer
  cases h : p.chart.accepts e && limits.allows g e.start e.stop e.parent <;> simp only [h] <;> rfl

theorem offer_chart (g : Grammar) (limits : Limits) (p : Progress) (e : Edge) :
    (p.offer g limits e).2.chart =
      if (p.offer g limits e).1 = true then p.chart.store g e else p.chart := by
  rw [offer_fst]
  unfold offer
  dsimp only
  split <;> rfl

/-- Offer some edges in turn. -/
def offerAll (g : Grammar) (limits : Limits) (p : Progress) (es : List Edge) : Progress :=
  es.foldl (fun p e => (p.offer g limits e).2) p

section

variable {g : Grammar} {limits : Limits} {p : Progress} {e : Edge}

theorem hasTarget_offer {τ : Target} :
    (p.offer g limits e).2.chart.HasTarget τ ↔ p.chart.HasTarget τ := by
  rw [offer_chart]
  split
  · exact Iff.rfl
  · exact Iff.rfl

/-- The edge scores a number, and the chart has its target where the limits allow it. -/
structure HasRoomFor (g : Grammar) (limits : Limits) (p : Progress) (e : Edge) : Prop where
  number : e.inside ≠ .nan
  target : limits.allows g e.start e.stop e.parent = true → p.chart.HasTarget e.target

theorem HasRoomFor.offer {f : Edge} (h : p.HasRoomFor g limits f) (e : Edge) :
    (p.offer g limits e).2.HasRoomFor g limits f :=
  ⟨h.number, fun hallows => hasTarget_offer.2 (h.target hallows)⟩

/-- An offer keeps a chart coherent and lowers nothing. -/
theorem coherent_offer (h : p.chart.Coherent g) (he : p.HasRoomFor g limits e) :
    (p.offer g limits e).2.chart.Coherent g ∧
      p.chart.Grows (p.offer g limits e).2.chart := by
  rw [offer_chart]
  split
  · next hyes =>
    rw [offer_fst, Bool.and_eq_true] at hyes
    exact ⟨h.store (he.target hyes.2) hyes.1, h.grows_store (he.target hyes.2) hyes.1⟩
  · exact ⟨h, Grows.refl _⟩

theorem le_scoreAt_offer (h : p.chart.Coherent g) (he : p.HasRoomFor g limits e)
    (hallows : limits.allows g e.start e.stop e.parent = true) :
    e.inside.rank ≤ ((p.offer g limits e).2.chart.scoreAt e.target).rank := by
  have htarget := he.target hallows
  rw [offer_chart]
  split
  · exact Int.le_of_eq (by rw [scoreAt_store h.sized htarget htarget, if_pos rfl])
  · next hno =>
    rw [offer_fst, hallows, Bool.and_true] at hno
    exact Score.rank_le_of_not_improves he.number (h.number _ htarget) hno

theorem grows_offerAll {es : List Edge} (h : p.chart.Coherent g)
    (hes : ∀ e ∈ es, p.HasRoomFor g limits e) :
    p.chart.Grows (p.offerAll g limits es).chart := by
  induction es generalizing p with
  | nil => exact Grows.refl p.chart
  | cons e es ih =>
      obtain ⟨he, hrest⟩ := List.forall_mem_cons.1 hes
      obtain ⟨hcoherent, hgrows⟩ := coherent_offer h he
      exact hgrows.trans (ih hcoherent fun f hf => (hrest f hf).offer e)

/-- Every offered edge that the limits allow is reached by its layer. -/
theorem le_scoreAt_offerAll {es : List Edge} (h : p.chart.Coherent g)
    (hes : ∀ e ∈ es, p.HasRoomFor g limits e) (hmem : e ∈ es)
    (hallows : limits.allows g e.start e.stop e.parent = true) :
    e.inside.rank ≤ ((p.offerAll g limits es).chart.scoreAt e.target).rank := by
  induction es generalizing p with
  | nil => cases hmem
  | cons first es ih =>
      obtain ⟨hfirst, hrest⟩ := List.forall_mem_cons.1 hes
      have hcoherent := (coherent_offer h hfirst).1
      have hrest' := fun f hf => (hrest f hf).offer first
      cases hmem with
      | head =>
          exact Int.le_trans (le_scoreAt_offer h hfirst hallows)
            ((grows_offerAll hcoherent hrest').score_le _
              (hasTarget_offer.2 (hfirst.target hallows)))
      | tail _ hmem => exact ih hcoherent hrest' hmem

end

variable {p : Progress} {e : Edge}

theorem extends_offer (h : p.chart.Sound t chain) (hg : t.grammar.WellFormed)
    (he : Offerable t chain Q e) :
    Extends t chain Q p.chart (p.offer t.grammar t.limits e).2.chart := by
  rw [offer_chart]
  split
  · next hyes =>
    rw [offer_fst, Bool.and_eq_true] at hyes
    exact Extends.store h hg (he.supported hyes.2) hyes.1 he.within
  · exact Extends.refl h

theorem extends_offerAll (hg : t.grammar.WellFormed) :
    ∀ (es : List Edge) {p : Progress}, p.chart.Sound t chain →
      (∀ e ∈ es, Offerable t chain Q e) →
      Extends t chain Q p.chart (p.offerAll t.grammar t.limits es).chart
  | [], _, h, _ => Extends.refl h
  | e :: es, _, h, hes =>
      have hfirst := extends_offer h hg (hes e List.mem_cons_self)
      hfirst.trans (extends_offerAll hg es hfirst.sound fun e' he' =>
        hes e' (List.mem_cons_of_mem e he'))

/-- A sound chart has room for the edges that may be offered. -/
theorem hasRoomFor_of_offerable {es : List Edge} (h : p.chart.Sound t chain)
    (hg : t.grammar.WellFormed) (hes : ∀ e ∈ es, Offerable t chain Q e) :
    ∀ e ∈ es, p.HasRoomFor t.grammar t.limits e :=
  fun e he => ⟨(hes e he).number,
    fun hallows => h.isFor.hasTarget_of_supported hg ((hes e he).supported hallows)⟩

end Progress

/-! ## Passes -/

namespace Progress

/-- Offers that remember whether one was committed: the progress is that of the plain
offers, and the chart is as before when none was. -/
theorem offers_eq (g : Grammar) (limits : Limits) :
    ∀ (es : List Edge) (changed : Bool) (p : Progress),
      (es.foldl (fun (changed, p) e =>
          ((changed || (p.offer g limits e).1), (p.offer g limits e).2)) (changed, p)).2 =
        p.offerAll g limits es ∧
      ((es.foldl (fun (changed, p) e =>
          ((changed || (p.offer g limits e).1), (p.offer g limits e).2)) (changed, p)).1 = false →
        changed = false ∧ (p.offerAll g limits es).chart = p.chart)
  | [], _, _ => ⟨rfl, fun h => ⟨h, rfl⟩⟩
  | e :: es, changed, p => by
      obtain ⟨hsnd, hfst⟩ := offers_eq g limits es (changed || (p.offer g limits e).1)
        (p.offer g limits e).2
      refine ⟨hsnd, fun h => ?_⟩
      obtain ⟨hchanged, hchart⟩ := hfst h
      rw [Bool.or_eq_false_iff] at hchanged
      refine ⟨hchanged.1, hchart.trans ?_⟩
      rw [offer_chart, hchanged.2]
      rfl

theorem unaryPass_snd (g : Grammar) (limits : Limits) (p : Progress) (start stop layer : Nat) :
    (p.unaryPass g limits start stop layer).2 =
      p.offerAll g limits (unaryEdges g p.chart start stop layer) :=
  (offers_eq g limits _ false p).1

theorem unaryPass_chart_of_unchanged {g : Grammar} {limits : Limits} {p : Progress}
    {start stop layer : Nat} (h : (p.unaryPass g limits start stop layer).1 = false) :
    (p.unaryPass g limits start stop layer).2.chart = p.chart := by
  rw [unaryPass_snd]
  exact ((offers_eq g limits _ false p).2 h).2

end Progress

/-- The unary edges over a layer, one for each unary production and reachable child. -/
theorem mem_unaryEdges {g : Grammar} (hg : g.WellFormed) {c : Chart} {start stop layer : Nat}
    {e : Edge} :
    e ∈ unaryEdges g c start stop layer ↔
      ∃ child id x, child ∈ c.populated start stop ∧ id < g.numProductions ∧
        (g.production id).expansion = .unary child ∧
        Score.extend (g.production id).logprob (c.scoreAt ⟨⟨start, stop, child⟩, layer⟩) = some x ∧
        Edge.unary g id start stop (layer + 1) x = e := by
  simp only [unaryEdges, List.mem_flatMap, List.mem_filterMap, Option.map_eq_some_iff,
    hg.mem_unaryWithChild]
  constructor
  · rintro ⟨child, hchild, id, ⟨hid, hexp⟩, x, hx, he⟩
    exact ⟨child, id, x, hchild, hid, hexp, hx, he⟩
  · rintro ⟨child, id, x, hchild, hid, hexp, hx, he⟩
    exact ⟨child, hchild, id, ⟨hid, hexp⟩, x, hx, he⟩

section

variable {start stop layer : Nat} {p : Progress}

theorem offerable_unaryEdges (h : p.chart.Sound t chain) (hg : t.grammar.WellFormed)
    (hspan : IsSpan t.sentence.size start stop) (hlayer : layer < chain)
    (hopen : t.limits.unaryOpen start stop = true) :
    ∀ e ∈ unaryEdges t.grammar p.chart start stop layer,
      Offerable t chain (fun τ => OfSpan start stop τ ∧ τ.layer = layer + 1) e := by
  intro e he
  obtain ⟨child, id, x, hchild, hid, hexp, hx, rfl⟩ := (mem_unaryEdges hg).1 he
  have hspan' : IsSpan p.chart.size start stop := by
    rw [h.isFor.size_eq]
    exact hspan
  have hsymbol := ((h.coherent.populated_iff _ _ _ hspan').1 hchild).1
  have hτ : p.chart.HasTarget ⟨⟨start, stop, child⟩, layer⟩ := by
    refine ⟨⟨hspan', hsymbol⟩, ?_⟩
    rw [h.isFor.maxChain_eq]
    exact Nat.le_of_lt hlayer
  refine ⟨Score.extend_ne_nan (hg.finite id hid) hx, fun hallows => ?_, ⟨⟨rfl, rfl⟩, rfl⟩⟩
  exact h.attains.supported_unary hτ hlayer hid hexp hopen hallows hx

theorem extends_unaryPass (h : p.chart.Sound t chain) (hg : t.grammar.WellFormed)
    (hspan : IsSpan t.sentence.size start stop) (hlayer : layer < chain)
    (hopen : t.limits.unaryOpen start stop = true) :
    Extends t chain (fun τ => OfSpan start stop τ ∧ τ.layer = layer + 1) p.chart
      (p.unaryPass t.grammar t.limits start stop layer).2.chart := by
  rw [Progress.unaryPass_snd]
  exact Progress.extends_offerAll hg _ h (offerable_unaryEdges h hg hspan hlayer hopen)

/-- A pass dominates the derivations one unary production deeper. -/
theorem dominates_unaryPass (h : p.chart.Sound t chain) (hg : t.grammar.WellFormed)
    (hspan : IsSpan t.sentence.size start stop) (hlayer : layer < chain)
    (hopen : t.limits.unaryOpen start stop = true)
    (hdom : ∀ D : Derivation, D.Obeys t chain → OfSpan start stop (D.target t.grammar) →
      D.depth = layer → p.chart.Dominates t D)
    {D : Derivation} (hD : D.Obeys t chain) (hDspan : OfSpan start stop (D.target t.grammar))
    (hdepth : D.depth = layer + 1) :
    (p.unaryPass t.grammar t.limits start stop layer).2.chart.Dominates t D := by
  cases D with
  | leaf id i => cases hdepth
  | binary id l r => cases hdepth
  | unary id D =>
      intro x hx
      have hlower : D.depth = layer := Nat.succ.inj hdepth
      have hdomD := hdom D hD.1 hDspan hlower
      obtain ⟨x', hx', hle⟩ := h.extend_of_dominates hg hD hdomD hx
      have hτ := h.isFor.hasTarget hg hD.1
      have hreach := Score.isReachable_mono (Score.extend_eq_some_iff.1 hx').1
        (h.coherent.best_number hτ.1) (h.coherent.score_le _ hτ)
      obtain ⟨rfl, rfl⟩ := hDspan
      subst hlower
      have hmem : Edge.unary t.grammar id D.start D.stop (D.depth + 1) x' ∈
          unaryEdges t.grammar p.chart D.start D.stop D.depth := by
        rw [mem_unaryEdges hg]
        exact ⟨D.symbol t.grammar, id, x',
          (h.coherent.populated_iff _ _ _ hτ.1.1).2 ⟨hτ.1.2, hreach⟩,
          hD.2.2.1, hD.2.2.2.1, hx', rfl⟩
      have hallows := hD.2.2.2.2.2
      have hreached := Progress.le_scoreAt_offerAll h.coherent
        (Progress.hasRoomFor_of_offerable h hg (offerable_unaryEdges h hg hspan hlayer hopen))
        hmem hallows
      rw [Progress.unaryPass_snd]
      exact Int.le_trans hle hreached

end

/-! ## All passes -/

/-- Above a layer without reachable derivations, none has a score. -/
theorem score_eq_none_above {start stop layer : Nat}
    (hnone : ∀ D : Derivation, D.Obeys t chain → OfSpan start stop (D.target t.grammar) →
      D.depth = layer → ∀ x, D.score t.grammar = some x → ¬ x.isReachable = true)
    (D : Derivation) (hD : D.Obeys t chain) (hspan : OfSpan start stop (D.target t.grammar))
    (hdepth : layer < D.depth) : D.score t.grammar = none := by
  induction D with
  | leaf id i => cases hdepth
  | binary id l r => cases hdepth
  | unary id D ih =>
      rw [Option.eq_none_iff_forall_ne_some]
      intro x hx
      obtain ⟨y, hy, hxy⟩ := Derivation.score_unary_eq_some.1 hx
      rcases Nat.lt_or_eq_of_le (Nat.le_of_lt_succ hdepth) with hlt | heq
      · rw [ih hD.1 hspan hlt] at hy
        cases hy
      · exact hnone D hD.1 hspan heq.symm y hy (Score.extend_eq_some_iff.1 hxy).1

section

variable {start stop : Nat}

theorem extends_unaryPassesFrom (hg : t.grammar.WellFormed)
    (hspan : IsSpan t.sentence.size start stop) (hopen : t.limits.unaryOpen start stop = true) :
    ∀ (passes layer : Nat) {p : Progress}, layer + passes = chain → p.chart.Sound t chain →
      Extends t chain (OfSpan start stop) p.chart
        (p.unaryPassesFrom t.grammar t.limits start stop passes layer).chart
  | 0, _, _, _, h => Extends.refl h
  | passes + 1, layer, p, hchain, h => by
      have hlayer : layer < chain := by omega
      have hpass := (extends_unaryPass h hg hspan hlayer hopen).mono
        (P := OfSpan start stop) fun _ hτ => hτ.1
      unfold Progress.unaryPassesFrom
      dsimp only
      split
      · exact hpass.trans
          (extends_unaryPassesFrom hg hspan hopen passes (layer + 1) (by omega) hpass.sound)
      · exact hpass

/-- The passes from a layer on dominate the whole cell, once the layers up to there are
dominated and those above are blank. -/
theorem dominates_unaryPassesFrom (hg : t.grammar.WellFormed)
    (hspan : IsSpan t.sentence.size start stop) (hopen : t.limits.unaryOpen start stop = true) :
    ∀ (passes layer : Nat) {p : Progress}, layer + passes = chain → p.chart.Sound t chain →
      (∀ D : Derivation, D.Obeys t chain → OfSpan start stop (D.target t.grammar) →
        D.depth ≤ layer → p.chart.Dominates t D) →
      (∀ τ, p.chart.HasTarget τ → OfSpan start stop τ → layer < τ.layer →
        p.chart.scoreAt τ = .unreachable) →
      ∀ D : Derivation, D.Obeys t chain → OfSpan start stop (D.target t.grammar) →
        (p.unaryPassesFrom t.grammar t.limits start stop passes layer).chart.Dominates t D
  | 0, layer, p, hchain, h, hdom, _, D, hD, hDspan =>
      hdom D hD hDspan (Nat.le_trans (Derivation.depth_le_of_obeys hD) (by omega))
  | passes + 1, layer, p, hchain, h, hdom, hblank, D, hD, hDspan => by
      have hlayer : layer < chain := by omega
      have hpass := extends_unaryPass h hg hspan hlayer hopen
      -- After the pass one more layer is dominated.
      have hdom' : ∀ D : Derivation, D.Obeys t chain → OfSpan start stop (D.target t.grammar) →
          D.depth ≤ layer + 1 →
          (p.unaryPass t.grammar t.limits start stop layer).2.chart.Dominates t D := by
        intro D hD hDspan hdepth
        rcases Nat.lt_or_eq_of_le hdepth with hlt | heq
        · exact hpass.dominates h hg hD (hdom D hD hDspan (by omega))
        · exact dominates_unaryPass h hg hspan hlayer hopen
            (fun D hD hDspan hdepth => hdom D hD hDspan (by omega)) hD hDspan heq
      unfold Progress.unaryPassesFrom
      dsimp only
      split
      · refine dominates_unaryPassesFrom hg hspan hopen passes (layer + 1) (by omega) hpass.sound
          hdom' ?_ D hD hDspan
        intro τ hτ hτspan hlayer
        have hτ' := hpass.grows.hasTarget.1 hτ
        rw [hpass.frame τ hτ' fun hQ => by omega]
        exact hblank τ hτ' hτspan (by omega)
      · next hno =>
        -- The pass left its layer blank, so nothing deeper has a score.
        have hsame := Progress.unaryPass_chart_of_unchanged (Bool.not_eq_true _ ▸ hno)
        rcases Nat.lt_or_ge (layer + 1) D.depth with hdeep | hshallow
        · have hblank' : ∀ D : Derivation, D.Obeys t chain →
              OfSpan start stop (D.target t.grammar) → D.depth = layer + 1 →
              ∀ x, D.score t.grammar = some x → ¬ x.isReachable = true := by
            intro D hD hDspan hdepth x hx hreach
            have hτ := h.isFor.hasTarget hg hD
            have hle := hdom' D hD hDspan (Nat.le_of_eq hdepth) x hx
            have hlayer : layer < (D.target t.grammar).layer := by
              change layer < D.depth
              omega
            rw [hsame, hblank _ hτ hDspan hlayer] at hle
            exact absurd hle (Int.not_le.2 (Score.isReachable_iff_rank.1 hreach).2)
          intro x hx
          rw [score_eq_none_above hblank' D hD hDspan hdeep] at hx
          cases hx
        · exact hdom' D hD hDspan hshallow

variable {p : Progress}

theorem extends_unaryPasses (h : p.chart.Sound t chain) (hg : t.grammar.WellFormed)
    (hspan : IsSpan t.sentence.size start stop) :
    Extends t chain (OfSpan start stop) p.chart
      (p.unaryPasses t.grammar t.limits start stop).chart := by
  unfold Progress.unaryPasses
  split
  · next hopen =>
    refine extends_unaryPassesFrom hg hspan hopen _ 0 ?_ h
    rw [Nat.zero_add, h.isFor.maxChain_eq]
  · exact Extends.refl h

/-- The unary passes close a cell whose layer zero is dominated and whose other layers
are blank. -/
theorem dominates_unaryPasses (h : p.chart.Sound t chain) (hg : t.grammar.WellFormed)
    (hspan : IsSpan t.sentence.size start stop)
    (hdom : ∀ D : Derivation, D.Obeys t chain → OfSpan start stop (D.target t.grammar) →
      D.depth = 0 → p.chart.Dominates t D)
    (hblank : ∀ τ, p.chart.HasTarget τ → OfSpan start stop τ → 0 < τ.layer →
      p.chart.scoreAt τ = .unreachable)
    {D : Derivation} (hD : D.Obeys t chain) (hDspan : OfSpan start stop (D.target t.grammar)) :
    (p.unaryPasses t.grammar t.limits start stop).chart.Dominates t D := by
  unfold Progress.unaryPasses
  split
  · next hopen =>
    refine dominates_unaryPassesFrom hg hspan hopen _ 0 ?_ h ?_ hblank D hD hDspan
    · rw [Nat.zero_add, h.isFor.maxChain_eq]
    · intro D hD hDspan hdepth
      exact hdom D hD hDspan (Nat.le_zero.1 hdepth)
  · next hclosed =>
    refine hdom D hD hDspan ?_
    cases D with
    | leaf id i => rfl
    | binary id l r => rfl
    | unary id D =>
        obtain ⟨rfl, rfl⟩ := hDspan
        exact absurd hD.2.2.2.2.1 hclosed

end

end BottomUp
end BestParse
