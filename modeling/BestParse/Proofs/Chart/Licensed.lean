import BestParse.Proofs.Chart.Exact

/-!
# Edges and their children

An edge is *licensed* by a task when it is a production of the grammar applied where
the limits allow it.  This says nothing of scores and does not change with the chart.

What does change is where an edge leads: a unary edge to the layer below over its own
span, a binary edge to the best layers of its two children as they are at the time
(`below`).  The children are always lower than the edge (`Licensed.height_below`), so
no path of edges returns to where it began.

`scoreOver?` is the score that the production of an edge has over the current scores of
its children.  It is the edge's own score when the edge is made, and may be more later.
-/

namespace BestParse

/-- A measure of targets that goes down from an edge to its children. -/
def Target.height (chain : Nat) (τ : Target) : Nat :=
  (τ.slot.stop - τ.slot.start - 1) * (chain + 1) + τ.layer

/-- A narrower target is lower, whatever its layer. -/
theorem Target.height_lt {chain : Nat} {σ τ : Target} (hlayer : σ.layer ≤ chain)
    (hspan : σ.slot.start < σ.slot.stop)
    (hwidth : σ.slot.stop - σ.slot.start < τ.slot.stop - τ.slot.start) :
    σ.height chain < τ.height chain := by
  have hmul := Address.mul_add_lt (b := τ.slot.stop - τ.slot.start - 1) (k := chain + 1)
    (a := σ.slot.stop - σ.slot.start - 1) (by omega) (Nat.lt_succ_of_le hlayer)
  exact Nat.lt_of_lt_of_le hmul (Nat.le_add_right _ _)

namespace Edge

/-! ## Licensed edges -/

/-- The span and the layer of an edge suit an expansion, and the limits allow it there. -/
def Fits (t : Task) (chain : Nat) (e : Edge) : Expansion → Prop
  | .lexical word =>
    e.start < t.sentence.size ∧ e.stop = e.start + 1 ∧ e.layer = 0 ∧
      t.sentence.token? e.start = some word
  | .unary _ =>
    IsSpan t.sentence.size e.start e.stop ∧ 0 < e.layer ∧ e.layer ≤ chain ∧
      t.limits.unaryOpen e.start e.stop = true ∧
      t.limits.allows t.grammar e.start e.stop e.parent = true
  | .binary _ _ =>
    e.stop ≤ t.sentence.size ∧ e.layer = 0 ∧ t.limits.isOpen e.start e.stop = true ∧
      (t.limits.splits e.start e.stop).contains e.mid = true ∧
      t.limits.allows t.grammar e.start e.stop e.parent = true

/-- The edge applies a production of the task's grammar where it may stand. -/
structure Licensed (t : Task) (chain : Nat) (e : Edge) : Prop where
  production_lt : e.production < t.grammar.numProductions
  parent_eq : e.parent = (t.grammar.production e.production).parent
  left_eq : e.left = (t.grammar.production e.production).expansion.left?
  right_eq : e.right = (t.grammar.production e.production).expansion.right?
  fits : e.Fits t chain (t.grammar.production e.production).expansion

/-- The targets that an edge leads to over a chart. -/
def below (g : Grammar) (c : Chart) (e : Edge) : List Target :=
  match (g.production e.production).expansion with
  | .lexical _ => []
  | .unary child => [⟨⟨e.start, e.stop, child⟩, e.layer - 1⟩]
  | .binary l r => [c.topOf ⟨e.start, e.mid, l⟩, c.topOf ⟨e.mid, e.stop, r⟩]

/-- The score of an edge's production over the current scores of its children. -/
def scoreOver? (g : Grammar) (c : Chart) (e : Edge) : Option Score :=
  match (g.production e.production).expansion with
  | .lexical _ => some (g.production e.production).logprob
  | .unary child =>
    Score.extend (g.production e.production).logprob
      (c.scoreAt ⟨⟨e.start, e.stop, child⟩, e.layer - 1⟩)
  | .binary l r =>
    Score.combine (g.production e.production).logprob (c.bestAt ⟨e.start, e.mid, l⟩)
      (c.bestAt ⟨e.mid, e.stop, r⟩)

variable {t : Task} {chain : Nat} {c : Chart} {e : Edge}

/-! ## Figures of merit do not matter -/

theorem Licensed.withFom (h : e.Licensed t chain) (fom : Score) :
    (e.withFom fom).Licensed t chain := by
  obtain ⟨hid, hparent, hleft, hright, hfits⟩ := h
  refine ⟨hid, hparent, hleft, hright, ?_⟩
  change (e.withFom fom).Fits t chain (t.grammar.production e.production).expansion
  cases hexp : (t.grammar.production e.production).expansion with
  | lexical w => rw [hexp] at hfits; exact hfits
  | unary child => rw [hexp] at hfits; exact hfits
  | binary l r => rw [hexp] at hfits; exact hfits

/-! ## Edges as the searches make them -/

theorem licensed_lexical {id : ProductionId} {i : Nat} (hi : i < t.sentence.size)
    (hid : id < t.grammar.numProductions)
    (hword : (t.sentence.token? i).map .lexical = some (t.grammar.production id).expansion) :
    (Edge.lexical t.grammar id i).Licensed t chain ∧
      (Edge.lexical t.grammar id i).scoreOver? t.grammar c =
        some (Edge.lexical t.grammar id i).inside := by
  obtain ⟨w, htoken, hexp⟩ := Option.map_eq_some_iff.1 hword
  have hfits : (Edge.lexical t.grammar id i).Fits t chain (.lexical w) :=
    ⟨hi, rfl, rfl, htoken⟩
  constructor
  · refine ⟨hid, rfl, ?_, ?_, ?_⟩
    · change none = (t.grammar.production id).expansion.left?
      rw [← hexp]
      rfl
    · change none = (t.grammar.production id).expansion.right?
      rw [← hexp]
      rfl
    · change Fits t chain _ (t.grammar.production id).expansion
      rw [← hexp]
      exact hfits
  · simp [scoreOver?, Edge.lexical, ← hexp]

theorem licensed_unary {id : ProductionId} {child : NonTerminal} {start stop layer : Nat}
    {x : Score} (hspan : IsSpan t.sentence.size start stop) (hlayer : layer < chain)
    (hid : id < t.grammar.numProductions)
    (hexp : (t.grammar.production id).expansion = .unary child)
    (hopen : t.limits.unaryOpen start stop = true)
    (hallows : t.limits.allows t.grammar start stop (t.grammar.production id).parent = true)
    (hx : Score.extend (t.grammar.production id).logprob
      (c.scoreAt ⟨⟨start, stop, child⟩, layer⟩) = some x) :
    (Edge.unary t.grammar id start stop (layer + 1) x).Licensed t chain ∧
      (Edge.unary t.grammar id start stop (layer + 1) x).scoreOver? t.grammar c = some x := by
  constructor
  · refine ⟨hid, rfl, rfl, ?_, ?_⟩
    · change none = (t.grammar.production id).expansion.right?
      rw [hexp]
      rfl
    · change Fits t chain _ (t.grammar.production id).expansion
      rw [hexp]
      exact ⟨hspan, Nat.succ_pos layer, hlayer, hopen, hallows⟩
  · simp [scoreOver?, Edge.unary, hexp, hx]

theorem licensed_binary {id : ProductionId} {l r : NonTerminal} {start mid stop : Nat} {x : Score}
    (hstop : stop ≤ t.sentence.size) (hid : id < t.grammar.numProductions)
    (hexp : (t.grammar.production id).expansion = .binary l r)
    (hopen : t.limits.isOpen start stop = true)
    (hmid : (t.limits.splits start stop).contains mid = true)
    (hallows : t.limits.allows t.grammar start stop (t.grammar.production id).parent = true)
    (hx : Score.combine (t.grammar.production id).logprob (c.bestAt ⟨start, mid, l⟩)
      (c.bestAt ⟨mid, stop, r⟩) = some x) :
    (Edge.binary t.grammar id start mid stop x).Licensed t chain ∧
      (Edge.binary t.grammar id start mid stop x).scoreOver? t.grammar c = some x := by
  constructor
  · refine ⟨hid, rfl, rfl, rfl, ?_⟩
    change Fits t chain _ (t.grammar.production id).expansion
    rw [hexp]
    exact ⟨hstop, rfl, hopen, hmid, hallows⟩
  · simp [scoreOver?, Edge.binary, hexp, hx]

/-! ## Where licensed edges stand -/

section

variable (h : e.Licensed t chain)

include h

theorem Licensed.fits_of {x : Expansion}
    (hexp : (t.grammar.production e.production).expansion = x) : e.Fits t chain x := by
  rw [← hexp]
  exact h.fits

theorem Licensed.kind_eq :
    e.kind = (t.grammar.production e.production).expansion.kind := by
  rw [kind, h.left_eq, h.right_eq]
  cases (t.grammar.production e.production).expansion <;> rfl

theorem Licensed.isSpan : IsSpan t.sentence.size e.start e.stop := by
  cases hexp : (t.grammar.production e.production).expansion with
  | lexical w =>
      obtain ⟨hstart, hstop, -⟩ := h.fits_of hexp
      exact ⟨by omega, by omega⟩
  | unary child => exact (h.fits_of hexp).1
  | binary l r =>
      obtain ⟨hstop, -, -, hmid, -⟩ := h.fits_of hexp
      obtain ⟨hlo, hhi⟩ := Limits.splits_inside hmid
      exact ⟨Nat.lt_trans hlo hhi, hstop⟩

theorem Licensed.layer_le : e.layer ≤ chain := by
  cases hexp : (t.grammar.production e.production).expansion with
  | lexical w => exact Nat.le_trans (Nat.le_of_eq (h.fits_of hexp).2.2.1) (Nat.zero_le chain)
  | unary child => exact (h.fits_of hexp).2.2.1
  | binary l r => exact Nat.le_trans (Nat.le_of_eq (h.fits_of hexp).2.1) (Nat.zero_le chain)

theorem Licensed.layer_eq_zero (hkind : e.kind = .binary) : e.layer = 0 := by
  rw [h.kind_eq] at hkind
  cases hexp : (t.grammar.production e.production).expansion with
  | lexical w => exact (h.fits_of hexp).2.2.1
  | unary child =>
      rw [hexp] at hkind
      cases hkind
  | binary l r => exact (h.fits_of hexp).2.1

/-- Over two words or more, the bottom layer is for binary edges. -/
theorem Licensed.kind_eq_binary (hlayer : e.layer = 0) (hwide : e.start + 2 ≤ e.stop) :
    e.kind = .binary := by
  rw [h.kind_eq]
  cases hexp : (t.grammar.production e.production).expansion with
  | lexical w =>
      obtain ⟨-, hstop, -⟩ := h.fits_of hexp
      omega
  | unary child =>
      obtain ⟨-, hpos, -⟩ := h.fits_of hexp
      omega
  | binary l r => rfl

theorem Licensed.hasTarget (hg : t.grammar.WellFormed) (hc : c.IsFor t chain) :
    c.HasTarget e.target := by
  refine hc.hasTarget_mk h.isSpan ?_ h.layer_le
  rw [h.parent_eq]
  exact hg.parent_lt _ h.production_lt

/-- The layer that a unary edge extends. -/
theorem Licensed.hasTarget_child (hg : t.grammar.WellFormed) (hc : c.IsFor t chain)
    {child : NonTerminal}
    (hexp : (t.grammar.production e.production).expansion = .unary child) :
    c.HasTarget ⟨⟨e.start, e.stop, child⟩, e.layer - 1⟩ := by
  have hscoped := hg.children_scoped _ h.production_lt
  rw [hexp] at hscoped
  have hlayer := h.layer_le
  exact hc.hasTarget_mk h.isSpan hscoped (by omega)

/-- The slots that a binary edge joins. -/
theorem Licensed.hasSlots (hg : t.grammar.WellFormed) (hc : c.IsFor t chain) {l r : NonTerminal}
    (hexp : (t.grammar.production e.production).expansion = .binary l r) :
    c.HasSlot ⟨e.start, e.mid, l⟩ ∧ c.HasSlot ⟨e.mid, e.stop, r⟩ := by
  have hscoped := hg.children_scoped _ h.production_lt
  rw [hexp] at hscoped
  obtain ⟨hstop, -, -, hmid, -⟩ := h.fits_of hexp
  obtain ⟨hlo, hhi⟩ := Limits.splits_inside hmid
  exact ⟨(hc.hasTarget_mk ⟨hlo, by omega⟩ hscoped.1 (Nat.zero_le _)).1,
    (hc.hasTarget_mk ⟨hhi, hstop⟩ hscoped.2 (Nat.zero_le _)).1⟩

theorem Licensed.hasTarget_below (hg : t.grammar.WellFormed) (hc : c.IsFor t chain)
    (hshaped : c.Shaped) : ∀ σ ∈ e.below t.grammar c, c.HasTarget σ := by
  intro σ hσ
  unfold below at hσ
  cases hexp : (t.grammar.production e.production).expansion with
  | lexical w =>
      rw [hexp] at hσ
      cases hσ
  | unary child =>
      rw [hexp] at hσ
      rw [List.mem_singleton.1 hσ]
      exact h.hasTarget_child hg hc hexp
  | binary l r =>
      obtain ⟨hl, hr⟩ := h.hasSlots hg hc hexp
      rw [hexp] at hσ
      simp only [List.mem_cons, List.not_mem_nil, or_false] at hσ
      rcases hσ with rfl | rfl
      · exact ⟨hl, hshaped.depth_le _ hl⟩
      · exact ⟨hr, hshaped.depth_le _ hr⟩

/-- The children of an edge are lower than the edge. -/
theorem Licensed.height_below (hg : t.grammar.WellFormed) (hc : c.IsFor t chain)
    (hshaped : c.Shaped) :
    ∀ σ ∈ e.below t.grammar c, σ.height chain < e.target.height chain := by
  have hnarrow : ∀ σ : Target, c.HasTarget σ →
      σ.slot.stop - σ.slot.start < e.stop - e.start →
      σ.height chain < e.target.height chain := fun σ hσ hwidth =>
    Target.height_lt (hc.maxChain_eq ▸ hσ.2) hσ.1.1.1 hwidth
  intro σ hσ
  have hσ' := h.hasTarget_below hg hc hshaped σ hσ
  unfold below at hσ
  cases hexp : (t.grammar.production e.production).expansion with
  | lexical w =>
      rw [hexp] at hσ
      cases hσ
  | unary child =>
      rw [hexp] at hσ
      rw [List.mem_singleton.1 hσ]
      obtain ⟨-, hpos, -⟩ := h.fits_of hexp
      exact Nat.add_lt_add_left (Nat.sub_lt hpos Nat.one_pos) _
  | binary l r =>
      rw [hexp] at hσ
      obtain ⟨hstop, -, -, hmid, -⟩ := h.fits_of hexp
      obtain ⟨hlo, hhi⟩ := Limits.splits_inside hmid
      simp only [List.mem_cons, List.not_mem_nil, or_false] at hσ
      rcases hσ with rfl | rfl
      · refine hnarrow _ hσ' ?_
        change e.mid - e.start < e.stop - e.start
        omega
      · refine hnarrow _ hσ' ?_
        change e.stop - e.mid < e.stop - e.start
        omega

end

end Edge

namespace Chart

open Edge

variable {t : Task} {chain : Nat} {c c' : Chart} {e : Edge}

/-! ## Scores over a chart -/

/-- The edge leads to its production's current score or less. -/
def Modest (g : Grammar) (c : Chart) (e : Edge) : Prop :=
  ∃ x, e.scoreOver? g c = some x ∧ e.inside.rank ≤ x.rank

/-- Over attained scores, the score of an edge's production is that of a derivation. -/
theorem Attains.exists_derivation (h : c.Attains t chain) (hg : t.grammar.WellFormed)
    (he : e.Licensed t chain) {x : Score} (hscore : e.scoreOver? t.grammar c = some x) :
    ∃ D : Derivation, D.Obeys t chain ∧ D.target t.grammar = e.target ∧
      D.score t.grammar = some x := by
  have hparent := he.parent_eq
  have hid := he.production_lt
  unfold Edge.scoreOver? at hscore
  cases hexp : (t.grammar.production e.production).expansion with
  | lexical w =>
      rw [hexp, Option.some.injEq] at hscore
      obtain ⟨hi, hstop, hlayer, hword⟩ := he.fits_of hexp
      have hsupported : (Edge.lexical t.grammar e.production e.start).Supported t chain :=
        supported_lexical hi hid (by rw [hword, hexp]; rfl)
      unfold Edge.Supported at hsupported
      unfold Edge.target Edge.slot at hsupported ⊢
      rw [hstop, hlayer, hparent, ← hscore]
      exact hsupported
  | unary child =>
      rw [hexp] at hscore
      obtain ⟨-, hpos, hle, hopen, hallows⟩ := he.fits_of hexp
      rw [hparent] at hallows
      have hlayer : e.layer - 1 < chain := by omega
      have hsupported := h.supported_unary (he.hasTarget_child hg h.isFor hexp) hlayer hid hexp
        hopen hallows hscore
      unfold Edge.Supported at hsupported
      unfold Edge.target Edge.slot at hsupported ⊢
      rw [hparent, ← Nat.sub_add_cancel hpos]
      exact hsupported
  | binary l r =>
      rw [hexp] at hscore
      obtain ⟨hl, hr⟩ := he.hasSlots hg h.isFor hexp
      obtain ⟨-, hlayer, hopen, hmid, hallows⟩ := he.fits_of hexp
      rw [hparent] at hallows
      have hsupported := h.supported_binary hl hr hid hexp hopen hmid hallows hscore
      unfold Edge.Supported at hsupported
      unfold Edge.target Edge.slot at hsupported ⊢
      rw [hparent, hlayer]
      exact hsupported

/-- The score over a chart goes up with the chart. -/
theorem Sound.scoreOver?_mono (h : c'.Sound t chain) (hg : t.grammar.WellFormed)
    (hgrows : c.Grows c') (he : e.Licensed t chain) {x : Score}
    (hx : e.scoreOver? t.grammar c = some x) :
    ∃ x', e.scoreOver? t.grammar c' = some x' ∧ x.rank ≤ x'.rank := by
  have hfinite := hg.finite _ he.production_lt
  unfold Edge.scoreOver? at hx ⊢
  cases hexp : (t.grammar.production e.production).expansion with
  | lexical w =>
      rw [hexp] at hx
      exact ⟨x, hx, Int.le_refl _⟩
  | unary child =>
      have hchild := he.hasTarget_child hg h.isFor hexp
      rw [hexp] at hx
      exact Score.extend_mono hfinite (h.coherent.number _ hchild)
        (hgrows.score_le _ (hgrows.hasTarget.1 hchild)) hx
  | binary l r =>
      obtain ⟨hl, hr⟩ := he.hasSlots hg h.isFor hexp
      rw [hexp] at hx
      exact Score.combine_mono hfinite (h.coherent.best_number hl) (h.coherent.best_number hr)
        (hgrows.best_le _ (hgrows.hasSlot.1 hl)) (hgrows.best_le _ (hgrows.hasSlot.1 hr)) hx

theorem Sound.modest_of_grows (h : c'.Sound t chain) (hg : t.grammar.WellFormed)
    (hgrows : c.Grows c') (he : e.Licensed t chain) (hmodest : c.Modest t.grammar e) :
    c'.Modest t.grammar e := by
  obtain ⟨x, hx, hle⟩ := hmodest
  obtain ⟨x', hx', hxx'⟩ := h.scoreOver?_mono hg hgrows he hx
  exact ⟨x', hx', Int.le_trans hle hxx'⟩

/-! ## Probabilities at most one -/

section

variable (hneg : t.grammar.Discounting)

include hneg

theorem Sound.bestAt_le_zero (h : c.Sound t chain) (hg : t.grammar.WellFormed) {x : Slot}
    (hx : c.HasSlot x) : (c.bestAt x).rank ≤ 0 := by
  by_cases hreach : (c.bestAt x).isReachable = true
  · obtain ⟨D, hD, -, hscore⟩ := h.attained_best hx hreach
    exact Derivation.score_le_zero hg hneg hD hscore
  · rw [Score.eq_unreachable_of_not_isReachable (h.coherent.best_number hx) hreach]
    exact Score.negInf_rank_le .certain

/-- A production scores no more than any of its children. -/
theorem Sound.scoreOver?_le_below (h : c.Sound t chain) (hg : t.grammar.WellFormed)
    (he : e.Licensed t chain) {x : Score} (hx : e.scoreOver? t.grammar c = some x) :
    ∀ σ ∈ e.below t.grammar c, x.rank ≤ (c.scoreAt σ).rank := by
  have hfinite := hg.finite _ he.production_lt
  have hlog := hneg _ he.production_lt
  unfold Edge.scoreOver? at hx
  unfold Edge.below
  cases hexp : (t.grammar.production e.production).expansion with
  | lexical w => exact nofun
  | unary child =>
      rw [hexp] at hx
      simp only [List.mem_singleton, forall_eq]
      exact Score.extend_le hfinite hlog hx
  | binary l r =>
      rw [hexp] at hx
      obtain ⟨hl, hr⟩ := he.hasSlots hg h.isFor hexp
      simp only [List.mem_cons, List.not_mem_nil, or_false, forall_eq_or_imp, forall_eq]
      rw [← h.coherent.best_eq _ hl, ← h.coherent.best_eq _ hr]
      exact Score.combine_le hfinite hlog (h.bestAt_le_zero hneg hg hl)
        (h.bestAt_le_zero hneg hg hr) hx

/-- A commit leaves the score of a production as it is, or gives it at most the score that was
committed. -/
theorem Sound.scoreOver?_store (h : c.Sound t chain) (hg : t.grammar.WellFormed)
    (he : e.Supported t chain) (hacc : c.accepts e = true) {p : Edge} (hp : p.Licensed t chain)
    {x : Score} (hx : p.scoreOver? t.grammar (c.store t.grammar e) = some x) :
    p.scoreOver? t.grammar c = some x ∨ p.kind ≠ .lexical ∧ x.rank ≤ e.inside.rank := by
  have htarget := h.isFor.hasTarget_of_supported hg he
  have hsound := h.store hg he hacc
  have hsized := h.coherent.sized
  -- If the edge has become a child of the production, the child bounds the score.
  have hchild : p.kind ≠ .lexical → e.target ∈ p.below t.grammar (c.store t.grammar e) →
      p.kind ≠ .lexical ∧ x.rank ≤ e.inside.rank := by
    intro hkind hmem
    have hle := hsound.scoreOver?_le_below hneg hg hp hx _ hmem
    rw [scoreAt_store hsized htarget htarget, if_pos rfl] at hle
    exact ⟨hkind, hle⟩
  rw [hp.kind_eq] at hchild ⊢
  unfold Edge.scoreOver? at hx ⊢
  unfold Edge.below at hchild
  cases hexp : (t.grammar.production p.production).expansion with
  | lexical w =>
      rw [hexp] at hx
      exact Or.inl hx
  | unary child =>
      rw [hexp] at hx hchild
      simp only [scoreAt_store hsized htarget (hp.hasTarget_child hg h.isFor hexp)] at hx
      split at hx
      · next heq => exact Or.inr (hchild nofun (by rw [← heq]; exact List.mem_singleton_self _))
      · exact Or.inl hx
  | binary l r =>
      obtain ⟨hl, hr⟩ := hp.hasSlots hg h.isFor hexp
      rw [hexp] at hx hchild
      simp only [bestAt_store hsized htarget hl, bestAt_store hsized htarget hr] at hx
      simp only [topOf_store hsized htarget hl, topOf_store hsized htarget hr] at hchild
      split at hx
      · next hraised =>
        rw [if_pos hraised] at hchild
        exact Or.inr (hchild nofun List.mem_cons_self)
      · split at hx
        · next hraised =>
          rw [if_pos hraised] at hchild
          exact Or.inr (hchild nofun (List.mem_cons_of_mem _ List.mem_cons_self))
        · exact Or.inl hx

end

end Chart
end BestParse
