import BestParse.Proofs.Chart.Coherence
import BestParse.Proofs.Derivation

/-!
# Charts and derivations

A chart of a task is *sound* when every reachable layer holds the score of some
derivation of the task.  Commits of *supported* edges keep it sound
(`Sound.store`), and edges built from attained scores are supported
(`Attains.supported_unary`, `Attains.supported_binary`).

A chart *dominates* a derivation when the derivation's target holds at least its
score.  A sound chart that dominates every derivation of the task is *exact*.  Two
exact charts of a task agree on every number (`Exact.agrees_scoreAt`,
`Exact.agrees_bestAt`), whichever search filled them.
-/

namespace BestParse

/-- Some derivation of the task has the target and the score of the edge. -/
def Edge.Supported (t : Task) (chain : Nat) (e : Edge) : Prop :=
  ∃ D : Derivation, D.Obeys t chain ∧ D.target t.grammar = e.target ∧
    D.score t.grammar = some e.inside

/-- The slot of the start symbol over the whole sentence. -/
def Task.root (t : Task) : Slot := ⟨0, t.sentence.size, t.grammar.start⟩

namespace Chart

/-- The chart has the dimensions of the task. -/
structure IsFor (t : Task) (chain : Nat) (c : Chart) : Prop where
  size_eq : c.size = t.sentence.size
  symbols_eq : c.symbols = t.grammar.numNonterminals
  maxChain_eq : c.maxChain = chain

/-- Every reachable layer holds the score of a derivation. -/
structure Sound (t : Task) (chain : Nat) (c : Chart) : Prop where
  isFor : c.IsFor t chain
  coherent : c.Coherent t.grammar
  attained : ∀ τ, c.HasTarget τ → (c.scoreAt τ).isReachable = true →
    ∃ D : Derivation, D.Obeys t chain ∧ D.target t.grammar = τ ∧
      D.score t.grammar = some (c.scoreAt τ)

/-- Every reachable layer and every reachable slot holds the score of a derivation.  A chart
needs no coherence for that. -/
structure Attains (t : Task) (chain : Nat) (c : Chart) : Prop where
  isFor : c.IsFor t chain
  layer : ∀ τ, c.HasTarget τ → (c.scoreAt τ).isReachable = true →
    ∃ D : Derivation, D.Obeys t chain ∧ D.target t.grammar = τ ∧
      D.score t.grammar = some (c.scoreAt τ)
  slot : ∀ x, c.HasSlot x → (c.bestAt x).isReachable = true →
    ∃ D : Derivation, D.Obeys t chain ∧ D.slot t.grammar = x ∧
      D.score t.grammar = some (c.bestAt x)

/-- The target of a derivation holds at least the derivation's score. -/
def Dominates (t : Task) (c : Chart) (D : Derivation) : Prop :=
  ∀ x, D.score t.grammar = some x → x.rank ≤ (c.scoreAt (D.target t.grammar)).rank

/-- No derivation of a slot scores better than the slot. -/
def Bounds (t : Task) (chain : Nat) (c : Chart) (x : Slot) : Prop :=
  ∀ D : Derivation, D.Obeys t chain → D.slot t.grammar = x →
    ∀ y, D.score t.grammar = some y → y.rank ≤ (c.bestAt x).rank

/-- A sound chart that dominates every derivation of the task. -/
structure Exact (t : Task) (chain : Nat) (c : Chart) : Prop extends Sound t chain c where
  dominates : ∀ D : Derivation, D.Obeys t chain → c.Dominates t D

theorem isFor_empty (t : Task) (chain : Nat) :
    (empty t.grammar t.sentence.size chain).IsFor t chain :=
  ⟨rfl, rfl, rfl⟩

theorem sound_empty (t : Task) (chain : Nat) :
    (empty t.grammar t.sentence.size chain).Sound t chain where
  isFor := isFor_empty t chain
  coherent := coherent_empty _ _ _
  attained τ _ hreach := by
    rw [scoreAt, layerAt_empty] at hreach
    cases hreach

variable {t : Task} {chain : Nat} {c : Chart}

theorem IsFor.hasTarget (h : c.IsFor t chain) (hg : t.grammar.WellFormed) {D : Derivation}
    (hD : D.Obeys t chain) : c.HasTarget (D.target t.grammar) := by
  refine ⟨⟨?_, ?_⟩, ?_⟩
  · rw [h.size_eq]
    exact Derivation.isSpan_of_obeys hD
  · rw [h.symbols_eq]
    exact Derivation.symbol_lt_of_obeys hg hD
  · rw [h.maxChain_eq]
    exact Derivation.depth_le_of_obeys hD

theorem IsFor.hasTarget_mk (h : c.IsFor t chain) {start stop depth : Nat} {nt : NonTerminal}
    (hspan : IsSpan t.sentence.size start stop) (hnt : nt < t.grammar.numNonterminals)
    (hdepth : depth ≤ chain) : c.HasTarget ⟨⟨start, stop, nt⟩, depth⟩ := by
  unfold HasTarget HasSlot
  rw [h.size_eq, h.symbols_eq, h.maxChain_eq]
  exact ⟨⟨hspan, hnt⟩, hdepth⟩

theorem IsFor.hasTarget_of_supported (h : c.IsFor t chain) (hg : t.grammar.WellFormed) {e : Edge}
    (he : e.Supported t chain) : c.HasTarget e.target := by
  obtain ⟨D, hD, htarget, -⟩ := he
  rw [← htarget]
  exact h.hasTarget hg hD

theorem IsFor.store (h : c.IsFor t chain) (e : Edge) : (c.store t.grammar e).IsFor t chain :=
  ⟨h.size_eq, h.symbols_eq, h.maxChain_eq⟩

theorem inside_ne_nan_of_supported (hg : t.grammar.WellFormed) {e : Edge}
    (he : e.Supported t chain) : e.inside ≠ .nan := by
  obtain ⟨D, hD, -, hscore⟩ := he
  exact Derivation.score_ne_nan hg hD hscore

/-! ## Commits of supported edges -/

/-- The score of a reachable slot of a sound chart is attained too. -/
theorem Sound.attained_best (h : c.Sound t chain) {x : Slot} (hx : c.HasSlot x)
    (hreach : (c.bestAt x).isReachable = true) :
    ∃ D : Derivation, D.Obeys t chain ∧ D.slot t.grammar = x ∧
      D.score t.grammar = some (c.bestAt x) := by
  rw [h.coherent.best_eq x hx] at hreach ⊢
  obtain ⟨D, hD, htarget, hscore⟩ := h.attained _ (h.coherent.hasTarget_topOf hx) hreach
  exact ⟨D, hD, congrArg Target.slot htarget, hscore⟩

theorem Sound.attains (h : c.Sound t chain) : c.Attains t chain :=
  ⟨h.isFor, h.attained, fun _ hx => h.attained_best hx⟩

/-- Scores stay attained, also where the commit lowers one. -/
theorem Attains.store (h : c.Attains t chain) (hc : c.WellSized) (hg : t.grammar.WellFormed)
    {e : Edge} (he : e.Supported t chain) : (c.store t.grammar e).Attains t chain where
  isFor := h.isFor.store e
  layer τ hτ hreach := by
    rw [scoreAt_store hc (h.isFor.hasTarget_of_supported hg he) hτ] at hreach ⊢
    split
    · next heq =>
      rw [heq]
      exact he
    · next hne =>
      rw [if_neg hne] at hreach
      exact h.layer τ hτ hreach
  slot x hx hreach := by
    rw [bestAt_store hc (h.isFor.hasTarget_of_supported hg he) hx] at hreach ⊢
    split
    · next hraised =>
      obtain ⟨D, hD, htarget, hscore⟩ := he
      exact ⟨D, hD, (congrArg Target.slot htarget).trans hraised.1.symm, hscore⟩
    · next hne =>
      rw [if_neg hne] at hreach
      exact h.slot x hx hreach

theorem Sound.store (h : c.Sound t chain) (hg : t.grammar.WellFormed) {e : Edge}
    (he : e.Supported t chain) (hacc : c.accepts e = true) :
    (c.store t.grammar e).Sound t chain where
  isFor := h.isFor.store e
  coherent := h.coherent.store (h.isFor.hasTarget_of_supported hg he) hacc
  attained := (h.attains.store h.coherent.sized hg he).layer

/-! ## Edges over attained scores -/

namespace Attains

theorem supported_lexical {id : ProductionId} {i : Nat} (hi : i < t.sentence.size)
    (hid : id < t.grammar.numProductions)
    (hword : (t.sentence.token? i).map .lexical = some (t.grammar.production id).expansion) :
    (Edge.lexical t.grammar id i).Supported t chain :=
  ⟨.leaf id i, ⟨hi, hid, hword⟩, rfl, rfl⟩

/-- A unary edge over an attained layer is supported. -/
theorem supported_unary (h : c.Attains t chain) {τ : Target} (hτ : c.HasTarget τ)
    (hlayer : τ.layer < chain) {id : ProductionId} (hid : id < t.grammar.numProductions)
    (hexp : (t.grammar.production id).expansion = .unary τ.slot.symbol)
    (hopen : t.limits.unaryOpen τ.slot.start τ.slot.stop = true)
    (hallows : t.limits.allows t.grammar τ.slot.start τ.slot.stop
      (t.grammar.production id).parent = true)
    {x : Score} (hx : Score.extend (t.grammar.production id).logprob (c.scoreAt τ) = some x) :
    (Edge.unary t.grammar id τ.slot.start τ.slot.stop (τ.layer + 1) x).Supported t chain := by
  obtain ⟨hreach, -⟩ := Score.extend_eq_some_iff.1 hx
  obtain ⟨D, hD, rfl, hscore⟩ := h.layer τ hτ hreach
  refine ⟨.unary id D, ⟨hD, hlayer, hid, hexp, hopen, hallows⟩, rfl, ?_⟩
  exact Derivation.score_unary_eq_some.2 ⟨_, hscore, hx⟩

/-- A binary edge over attained slots is supported. -/
theorem supported_binary (h : c.Attains t chain) {start mid stop : Nat} {l r : NonTerminal}
    (hl : c.HasSlot ⟨start, mid, l⟩) (hr : c.HasSlot ⟨mid, stop, r⟩) {id : ProductionId}
    (hid : id < t.grammar.numProductions)
    (hexp : (t.grammar.production id).expansion = .binary l r)
    (hopen : t.limits.isOpen start stop = true)
    (hmid : (t.limits.splits start stop).contains mid = true)
    (hallows : t.limits.allows t.grammar start stop (t.grammar.production id).parent = true)
    {x : Score}
    (hx : Score.combine (t.grammar.production id).logprob (c.bestAt ⟨start, mid, l⟩)
      (c.bestAt ⟨mid, stop, r⟩) = some x) :
    (Edge.binary t.grammar id start mid stop x).Supported t chain := by
  obtain ⟨hreachl, hreachr, -⟩ := Score.combine_eq_some_iff.1 hx
  obtain ⟨L, hL, hslotl, hscorel⟩ := h.slot _ hl hreachl
  obtain ⟨R, hR, hslotr, hscorer⟩ := h.slot _ hr hreachr
  injection hslotl with hstart hmidl hsyml
  injection hslotr with hmidr hstop hsymr
  subst hstart hmidl hsyml hstop hsymr
  refine ⟨.binary id L R, ⟨hL, hR, hmidr.symm, hid, hexp, hopen, hmid, hallows⟩, rfl, ?_⟩
  exact Derivation.score_binary_eq_some.2 ⟨_, _, hscorel, hscorer, hx⟩

end Attains

/-! ## Dominated children -/

theorem dominates_of_grows {c' : Chart} (hgrows : c.Grows c') (hc : c.IsFor t chain)
    (hg : t.grammar.WellFormed) {D : Derivation} (hD : D.Obeys t chain) (h : c.Dominates t D) :
    c'.Dominates t D := by
  intro x hx
  exact Int.le_trans (h x hx) (hgrows.score_le _ (hc.hasTarget hg hD))

/-- The score of a dominated derivation is at most its slot's. -/
theorem Sound.rank_le_bestAt (h : c.Sound t chain) (hg : t.grammar.WellFormed) {D : Derivation}
    (hD : D.Obeys t chain) (hdom : c.Dominates t D) {x : Score}
    (hx : D.score t.grammar = some x) : x.rank ≤ (c.bestAt (D.slot t.grammar)).rank :=
  Int.le_trans (hdom x hx) (h.coherent.score_le _ (h.isFor.hasTarget hg hD))

/-- Over a dominated child the chart offers a unary edge at least as good. -/
theorem Sound.extend_of_dominates (h : c.Sound t chain) (hg : t.grammar.WellFormed)
    {id : ProductionId} {D : Derivation} (hD : (Derivation.unary id D).Obeys t chain)
    (hdom : c.Dominates t D) {x : Score}
    (hx : (Derivation.unary id D).score t.grammar = some x) :
    ∃ x',
      Score.extend (t.grammar.production id).logprob (c.scoreAt (D.target t.grammar)) = some x' ∧
      x.rank ≤ x'.rank := by
  obtain ⟨y, hy, hxy⟩ := Derivation.score_unary_eq_some.1 hx
  exact Score.extend_mono (hg.finite id hD.2.2.1)
    (h.coherent.number _ (h.isFor.hasTarget hg hD.1)) (hdom y hy) hxy

/-- Over dominated children the chart offers a binary edge at least as good. -/
theorem Sound.combine_of_dominates (h : c.Sound t chain) (hg : t.grammar.WellFormed)
    {id : ProductionId} {L R : Derivation} (hD : (Derivation.binary id L R).Obeys t chain)
    (hdoml : c.Dominates t L) (hdomr : c.Dominates t R) {x : Score}
    (hx : (Derivation.binary id L R).score t.grammar = some x) :
    ∃ x', Score.combine (t.grammar.production id).logprob (c.bestAt (L.slot t.grammar))
        (c.bestAt (R.slot t.grammar)) = some x' ∧ x.rank ≤ x'.rank := by
  obtain ⟨y, z, hy, hz, hxyz⟩ := Derivation.score_binary_eq_some.1 hx
  have hL := h.isFor.hasTarget hg hD.1
  have hR := h.isFor.hasTarget hg hD.2.1
  exact Score.combine_mono (hg.finite id hD.2.2.2.1) (h.coherent.best_number hL.1)
    (h.coherent.best_number hR.1) (h.rank_le_bestAt hg hD.1 hdoml hy)
    (h.rank_le_bestAt hg hD.2.1 hdomr hz) hxyz

/-! ## Exact charts -/

/-- A layer of a sound chart is at most that of a chart that dominates its derivations. -/
theorem Sound.scoreAt_le (h : c.Sound t chain) {c' : Chart} {τ : Target} (hτ : c.HasTarget τ)
    (hdom : ∀ D : Derivation, D.Obeys t chain → D.target t.grammar = τ → c'.Dominates t D) :
    (c.scoreAt τ).rank ≤ (c'.scoreAt τ).rank := by
  by_cases hreach : (c.scoreAt τ).isReachable = true
  · obtain ⟨D, hD, rfl, hscore⟩ := h.attained τ hτ hreach
    exact hdom D hD rfl _ hscore
  · rw [Score.eq_unreachable_of_not_isReachable (h.coherent.number τ hτ) hreach]
    exact Score.negInf_rank_le _

theorem IsFor.hasTarget_iff {c' : Chart} (h : c.IsFor t chain) (h' : c'.IsFor t chain)
    {τ : Target} : c.HasTarget τ ↔ c'.HasTarget τ := by
  rw [HasTarget, HasTarget, HasSlot, HasSlot, h.size_eq, h'.size_eq, h.symbols_eq, h'.symbols_eq,
    h.maxChain_eq, h'.maxChain_eq]

theorem IsFor.hasSlot_iff {c' : Chart} (h : c.IsFor t chain) (h' : c'.IsFor t chain) {x : Slot} :
    c.HasSlot x ↔ c'.HasSlot x := by
  rw [HasSlot, HasSlot, h.size_eq, h'.size_eq, h.symbols_eq, h'.symbols_eq]

/-- A slot of a sound chart is at most that of a chart that bounds it. -/
theorem Sound.bestAt_le (h : c.Sound t chain) {c' : Chart} {x : Slot} (hx : c.HasSlot x)
    (hbound : c'.Bounds t chain x) : (c.bestAt x).rank ≤ (c'.bestAt x).rank := by
  by_cases hreach : (c.bestAt x).isReachable = true
  · obtain ⟨D, hD, hslot, hscore⟩ := h.attained_best hx hreach
    exact hbound D hD hslot _ hscore
  · rw [Score.eq_unreachable_of_not_isReachable (h.coherent.best_number hx) hreach]
    exact Score.negInf_rank_le _

/-- Sound charts agree on a slot that both bound. -/
theorem Sound.agrees_bestAt (h : c.Sound t chain) {c' : Chart} (h' : c'.Sound t chain) {x : Slot}
    (hx : c.HasSlot x) (hbound : c.Bounds t chain x) (hbound' : c'.Bounds t chain x) :
    (c.bestAt x).Agrees (c'.bestAt x) := by
  have hx' : c'.HasSlot x := (h.isFor.hasSlot_iff h'.isFor).1 hx
  exact ⟨h.coherent.best_number hx, h'.coherent.best_number hx',
    Int.le_antisymm (h.bestAt_le hx hbound') (h'.bestAt_le hx' hbound)⟩

namespace Exact

variable {c' : Chart}

/-- Exact charts agree on every layer. -/
theorem agrees_scoreAt (h : c.Exact t chain) (h' : c'.Exact t chain) {τ : Target}
    (hτ : c.HasTarget τ) : (c.scoreAt τ).Agrees (c'.scoreAt τ) := by
  have hτ' : c'.HasTarget τ := (h.isFor.hasTarget_iff h'.isFor).1 hτ
  refine ⟨h.coherent.number τ hτ, h'.coherent.number τ hτ', ?_⟩
  apply Int.le_antisymm
  · exact h.scoreAt_le hτ fun D hD _ => h'.dominates D hD
  · exact h'.scoreAt_le hτ' fun D hD _ => h.dominates D hD

theorem bounds (h : c.Exact t chain) (hg : t.grammar.WellFormed) (x : Slot) :
    c.Bounds t chain x := by
  rintro D hD rfl y hy
  exact h.rank_le_bestAt hg hD (h.dominates D hD) hy

/-- Exact charts agree on every slot. -/
theorem agrees_bestAt (h : c.Exact t chain) (h' : c'.Exact t chain) (hg : t.grammar.WellFormed)
    {x : Slot} (hx : c.HasSlot x) : (c.bestAt x).Agrees (c'.bestAt x) :=
  h.toSound.agrees_bestAt h'.toSound hx (h.bounds hg x) (h'.bounds hg x)

theorem agrees_layerInside (h : c.Exact t chain) (h' : c'.Exact t chain) {start stop depth : Nat}
    {nt : NonTerminal} (hspan : IsSpan t.sentence.size start stop)
    (hnt : nt < t.grammar.numNonterminals) (hdepth : depth ≤ chain) :
    (c.layerInside start stop nt depth).Agrees (c'.layerInside start stop nt depth) := by
  rw [layerInside_eq, layerInside_eq]
  exact h.agrees_scoreAt h' (h.isFor.hasTarget_mk hspan hnt hdepth)

theorem agrees_inside (h : c.Exact t chain) (h' : c'.Exact t chain) (hg : t.grammar.WellFormed)
    {start stop : Nat} {nt : NonTerminal} (hspan : IsSpan t.sentence.size start stop)
    (hnt : nt < t.grammar.numNonterminals) :
    (c.inside start stop nt).Agrees (c'.inside start stop nt) := by
  rw [inside_eq, inside_eq]
  exact h.agrees_bestAt h' hg (h.isFor.hasTarget_mk hspan hnt (Nat.zero_le _)).1

/-- Exact charts populate the same slots. -/
theorem populated_perm (h : c.Exact t chain) (h' : c'.Exact t chain) (hg : t.grammar.WellFormed)
    {start stop : Nat} (hspan : IsSpan c.size start stop) :
    (c.populated start stop).Perm (c'.populated start stop) := by
  have hspan' : IsSpan c'.size start stop := by
    rw [h'.isFor.size_eq, ← h.isFor.size_eq]
    exact hspan
  rw [List.perm_ext_iff_of_nodup (h.coherent.nodup _ _ hspan) (h'.coherent.nodup _ _ hspan')]
  intro nt
  rw [h.coherent.populated_iff _ _ _ hspan, h'.coherent.populated_iff _ _ _ hspan',
    h.isFor.symbols_eq, h'.isFor.symbols_eq]
  refine and_congr_right fun hnt => ?_
  have hx : c.HasSlot ⟨start, stop, nt⟩ := ⟨hspan, by rw [h.isFor.symbols_eq]; exact hnt⟩
  rw [(h.agrees_bestAt h' hg hx).isReachable_eq]

/-- A layer of an exact chart holds the best score of its derivations. -/
theorem isBestScore (h : c.Exact t chain) (hg : t.grammar.WellFormed) {τ : Target}
    (hτ : c.HasTarget τ) :
    IsBestScore t.grammar (fun D => D.Obeys t chain ∧ D.target t.grammar = τ) (c.scoreAt τ) where
  upper := by
    rintro D x ⟨hD, rfl⟩ hx
    rw [Score.isAtMost_iff]
    exact ⟨Derivation.score_ne_nan hg hD hx, h.coherent.number _ hτ, h.dominates D hD x hx⟩
  attained hreach := by
    obtain ⟨D, hD, htarget, hscore⟩ := h.attained τ hτ hreach
    exact ⟨D, ⟨hD, htarget⟩, hscore⟩
  unreachable hnone := by
    apply Score.eq_unreachable_of_not_isReachable (h.coherent.number τ hτ)
    intro hreach
    obtain ⟨D, hD, htarget, hscore⟩ := h.attained τ hτ hreach
    have hfalse := hnone D _ ⟨hD, htarget⟩ hscore
    rw [hreach] at hfalse
    cases hfalse

/-- The derivations of a layer are told by their words, symbol and depth. -/
theorem isBestScore_layerInside (h : c.Exact t chain) (hg : t.grammar.WellFormed)
    {start stop depth : Nat} {nt : NonTerminal} (hspan : IsSpan t.sentence.size start stop)
    (hnt : nt < t.grammar.numNonterminals) (hdepth : depth ≤ chain) :
    IsBestScore t.grammar
      (fun D => D.Obeys t chain ∧ D.positions = List.range' start (stop - start) ∧
        D.symbol t.grammar = nt ∧ D.depth = depth)
      (c.layerInside start stop nt depth) := by
  rw [layerInside_eq]
  refine (h.isBestScore hg (h.isFor.hasTarget_mk hspan hnt hdepth)).congr fun D => ?_
  refine and_congr_right fun hD => ?_
  rw [Derivation.positions_eq_range'_iff hD hspan.1]
  constructor
  · intro heq
    injection heq with hslot hlayer
    injection hslot with hstart hstop hsymbol
    exact ⟨⟨hstart, hstop⟩, hsymbol, hlayer⟩
  · rintro ⟨⟨rfl, rfl⟩, rfl, rfl⟩
    rfl

end Exact

/-- A slot holds the greatest of its layers' scores. -/
theorem Sound.inside_eq_max (h : c.Sound t chain) {start stop : Nat} {nt : NonTerminal}
    (hspan : IsSpan t.sentence.size start stop) (hnt : nt < t.grammar.numNonterminals) :
    (∃ depth, depth ≤ chain ∧ c.inside start stop nt = c.layerInside start stop nt depth) ∧
      ∀ depth, depth ≤ chain →
        (c.layerInside start stop nt depth).isAtMost (c.inside start stop nt) = true := by
  have hslot := (h.isFor.hasTarget_mk hspan hnt (Nat.zero_le _)).1
  simp only [inside_eq, layerInside_eq]
  constructor
  · refine ⟨(c.bestOfSlot ⟨start, stop, nt⟩).layer, ?_, h.coherent.best_eq _ hslot⟩
    rw [← h.isFor.maxChain_eq]
    exact (h.coherent.hasTarget_topOf hslot).2
  · intro depth hdepth
    have hτ := h.isFor.hasTarget_mk hspan hnt hdepth
    rw [Score.isAtMost_iff]
    exact ⟨h.coherent.number _ hτ, h.coherent.best_number hslot, h.coherent.score_le _ hτ⟩

/-! ## The root -/

theorem IsFor.rootInside_eq (h : c.IsFor t chain) (hsize : t.sentence.size ≠ 0) :
    c.rootInside t.grammar = c.bestAt t.root := by
  rw [rootInside, h.size_eq, if_neg hsize]
  rfl

theorem IsFor.hasSlot_root (h : c.IsFor t chain) (hg : t.grammar.WellFormed)
    (hsize : t.sentence.size ≠ 0) : c.HasSlot t.root := by
  unfold HasSlot Task.root
  rw [h.size_eq, h.symbols_eq]
  exact ⟨⟨Nat.pos_of_ne_zero hsize, Nat.le_refl _⟩, hg.start_lt⟩

/-- A sound chart is complete when its root is reachable. -/
theorem Sound.isComplete_iff (h : c.Sound t chain) (hg : t.grammar.WellFormed)
    (hsize : t.sentence.size ≠ 0) :
    c.isComplete t.grammar = true ↔ (c.bestAt t.root).isReachable = true := by
  rw [isComplete, h.isFor.size_eq, decide_eq_true hsize, Bool.true_and,
    ← h.coherent.isPopulated_iff (h.isFor.hasSlot_root hg hsize)]
  rfl

theorem Sound.isComplete_eq (h : c.Sound t chain) (hg : t.grammar.WellFormed) :
    c.isComplete t.grammar = (c.rootInside t.grammar).isReachable := by
  by_cases hsize : t.sentence.size = 0
  · rw [isComplete, rootInside, h.isFor.size_eq, hsize]
    rfl
  · rw [h.isFor.rootInside_eq hsize, Bool.eq_iff_iff]
    exact h.isComplete_iff hg hsize

theorem outcome_eq_parsed_iff {g : Grammar} : c.outcome g = .parsed ↔ c.isComplete g = true := by
  unfold outcome
  split
  · next hcomplete => exact ⟨fun _ => hcomplete, fun _ => rfl⟩
  · next hnot => exact ⟨nofun, fun hcomplete => absurd hcomplete hnot⟩

theorem Sound.outcome_eq {c' : Chart} (h : c.Sound t chain) (h' : c'.Sound t chain)
    (hg : t.grammar.WellFormed)
    (hroot : (c.rootInside t.grammar).Agrees (c'.rootInside t.grammar)) :
    c.outcome t.grammar = c'.outcome t.grammar := by
  rw [outcome, outcome, h.isComplete_eq hg, h'.isComplete_eq hg, hroot.isReachable_eq]

/-- Sound charts agree on the root when both bound it. -/
theorem Sound.agrees_rootInside {c' : Chart} (h : c.Sound t chain) (h' : c'.Sound t chain)
    (hg : t.grammar.WellFormed) (hbound : c.Bounds t chain t.root)
    (hbound' : c'.Bounds t chain t.root) :
    (c.rootInside t.grammar).Agrees (c'.rootInside t.grammar) := by
  by_cases hsize : t.sentence.size = 0
  · rw [rootInside, rootInside, h.isFor.size_eq, h'.isFor.size_eq, hsize]
    exact ⟨nofun, nofun, rfl⟩
  · rw [h.isFor.rootInside_eq hsize, h'.isFor.rootInside_eq hsize]
    exact h.agrees_bestAt h' (h.isFor.hasSlot_root hg hsize) hbound hbound'

end Chart
end BestParse
