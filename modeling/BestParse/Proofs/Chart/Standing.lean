import BestParse.Proofs.Chart.Log

/-!
# What stands in a chart

A commit may put another edge in the place of a stored one, but it empties no layer.  This needs
nothing of the edge and nothing of the chart (`Holds.store`), since a commit writes an edge to
one place and leaves the others alone.  So what holds an edge at some stage of a log holds one at
the end (`Holds.replay`), and a word that was seeded keeps an edge for each of its lexical
productions (`holds_seedEdges`).

The lists of a cell follow.  Whatever the gate of a course lets pass, a nonterminal is listed
when one of its layers holds an edge (`Course.mem_populated_iff`).
-/

namespace BestParse
namespace Chart

variable {g : Grammar} {c : Chart} {e : Edge} {τ : Target}

/-! ## Nothing is emptied -/

/-- Writing to an array changes what is read to what was written, or not at all. -/
theorem getD_setIfInBounds_eq_or {α : Type} (a : Array α) (i j : Nat) (x d : α) :
    (a.setIfInBounds i x).getD j d = a.getD j d ∨ (a.setIfInBounds i x).getD j d = x := by
  by_cases hi : i < a.size
  · rw [getD_setIfInBounds hi]
    split
    · exact Or.inr rfl
    · exact Or.inl rfl
  · rw [Array.setIfInBounds_eq_of_size_le (Nat.le_of_not_lt hi)]
    exact Or.inl rfl

/-- A layer is as it was, or holds the edge committed. -/
theorem layerAt_store_eq_or (g : Grammar) (c : Chart) (e : Edge) (τ : Target) :
    (c.store g e).layerAt τ = c.layerAt τ ∨
      (c.store g e).layerAt τ = ⟨e.inside, e.fom, some e⟩ :=
  getD_setIfInBounds_eq_or c.layers _ _ _ _

theorem holds_of_layerAt_eq {l : Layer} (h : c.layerAt τ = l) (hedge : l.edge.isSome = true) :
    c.Holds τ := by
  rwa [Holds, h]

theorem not_holds_empty (g : Grammar) (size maxChain : Nat) (τ : Target) :
    ¬ (empty g size maxChain).Holds τ := by
  rw [Holds, layerAt_empty]
  exact Bool.false_ne_true

theorem Holds.store (h : c.Holds τ) (g : Grammar) (e : Edge) : (c.store g e).Holds τ := by
  rcases layerAt_store_eq_or g c e τ with hold | hnew
  · exact holds_of_layerAt_eq hold h
  · exact holds_of_layerAt_eq hnew rfl

/-- No commit of a log empties a layer. -/
theorem Holds.replay (h : c.Holds τ) (g : Grammar) (es : List Edge) : (c.replay g es).Holds τ := by
  induction es generalizing c with
  | nil => exact h
  | cons e es ih => exact ih (h.store g e)

/-- What holds an edge at a stage of a log holds one when the log is done. -/
theorem IsStage.holds {c' : Chart} {log : List Edge} (h : c.IsStage g log c')
    (hholds : c'.Holds τ) : (c.replay g log).Holds τ := by
  obtain ⟨k, rfl⟩ := h
  rw [← List.take_append_drop k log, replay_append]
  exact hholds.replay g _

theorem WellSized.replay (h : c.WellSized) (g : Grammar) (es : List Edge) :
    (c.replay g es).WellSized := by
  induction es generalizing c with
  | nil => exact h
  | cons e es ih => exact ih (h.store g e)

theorem IsFor.replay {t : Task} {chain : Nat} (h : c.IsFor t chain) (es : List Edge) :
    (c.replay t.grammar es).IsFor t chain := by
  induction es generalizing c with
  | nil => exact h
  | cons e es ih => exact ih (h.store e)

/-- After a commit its target holds an edge, and what held one before. -/
theorem holds_store_iff (hc : c.WellSized) (he : c.HasTarget e.target) (hτ : c.HasTarget τ) :
    (c.store g e).Holds τ ↔ τ = e.target ∨ c.Holds τ := by
  rw [Holds, layerAt_store hc he hτ]
  split
  · next heq => exact iff_of_true rfl (Or.inl heq)
  · next hne => exact (or_iff_right hne).symm

/-! ## Layers without an edge -/

/-- Layers without an edge are unreachable. -/
def Sparse (c : Chart) : Prop := ∀ τ, ¬ c.Holds τ → c.scoreAt τ = .unreachable

theorem sparse_empty (g : Grammar) (size maxChain : Nat) : (empty g size maxChain).Sparse := by
  intro τ _
  rw [scoreAt, layerAt_empty]

theorem Sparse.store (h : c.Sparse) (g : Grammar) (e : Edge) : (c.store g e).Sparse := by
  intro τ hτ
  have hbefore := h τ fun hholds => hτ (hholds.store g e)
  rcases layerAt_store_eq_or g c e τ with hold | hnew
  · rw [scoreAt, hold]
    exact hbefore
  · exact absurd (holds_of_layerAt_eq hnew rfl) hτ

theorem Sparse.replay (h : c.Sparse) (g : Grammar) (es : List Edge) : (c.replay g es).Sparse := by
  induction es generalizing c with
  | nil => exact h
  | cons e es ih => exact ih (h.store g e)

/-- An edge with a reachable score is accepted, unless its layer holds an edge already. -/
theorem Sparse.holds_of_not_accepts (h : c.Sparse) (hreach : e.inside.isReachable = true)
    (hacc : ¬ c.accepts e = true) : c.Holds e.target := by
  by_contra hnone
  have hlayer : c.layerInside e.start e.stop e.parent e.layer = .unreachable := h e.target hnone
  rw [accepts, hlayer] at hacc
  exact hacc hreach

/-- Seeding leaves an edge for each of the productions seeded. -/
theorem holds_seedEdges {i : Nat} {ids : List ProductionId} (hsized : c.WellSized)
    (hsparse : c.Sparse)
    (hids : ∀ id ∈ ids, c.HasTarget (Edge.lexical g id i).target ∧
      (g.production id).logprob.isReachable = true) :
    ∀ id ∈ ids, (c.replay g (c.seedEdges g i ids)).Holds (Edge.lexical g id i).target := by
  induction ids generalizing c with
  | nil => exact List.forall_mem_nil _
  | cons first ids ih =>
      obtain ⟨⟨htarget, hreach⟩, hrest⟩ := List.forall_mem_cons.1 hids
      unfold seedEdges
      split
      · refine List.forall_mem_cons.2 ⟨?_, ih (hsized.store g _) (hsparse.store g _) hrest⟩
        exact ((holds_store_iff hsized htarget htarget).2 (Or.inl rfl)).replay g _
      · next hacc =>
        refine List.forall_mem_cons.2 ⟨?_, ih hsized hsparse hrest⟩
        exact (hsparse.holds_of_not_accepts hreach hacc).replay g _

/-! ## The lists of a cell -/

variable {t : Task} {chain : Nat} {gate : Chart → Edge → Prop} {es : List Edge}

/-- A slot is populated when one of its layers holds an edge. -/
theorem Course.isPopulated_iff (h : Course t chain gate c es) (hg : t.grammar.WellFormed)
    {x : Slot} (hx : c.HasSlot x) :
    c.isPopulated x.start x.stop x.symbol = true ↔ ∃ d ≤ chain, c.Holds ⟨x, d⟩ := by
  induction h with
  | start =>
      rw [isPopulated_eq, layerAt_empty]
      refine iff_of_false Bool.false_ne_true ?_
      rintro ⟨d, -, hholds⟩
      exact not_holds_empty _ _ _ _ hholds
  | make before licensed score_eq ih => exact ih hx
  | @commit c es e before mem passes ih =>
      obtain ⟨hlinked, hhand⟩ := before.linked hg
      have hlicensed := (hhand e mem).1
      have htarget := hlicensed.hasTarget hg hlinked.isFor
      have hsized := hlinked.shaped.sized
      rw [isPopulated_store hlinked.shaped htarget hx, ih hx]
      constructor
      · rintro (rfl | ⟨d, hd, hholds⟩)
        · exact ⟨e.layer, hlicensed.layer_le,
            (holds_store_iff hsized htarget htarget).2 (Or.inl rfl)⟩
        · exact ⟨d, hd, hholds.store _ e⟩
      · rintro ⟨d, hd, hholds⟩
        have hτ : c.HasTarget ⟨x, d⟩ := ⟨hx, hlinked.isFor.maxChain_eq ▸ hd⟩
        rcases (holds_store_iff hsized htarget hτ).1 hholds with heq | hold
        · exact Or.inl (congrArg Target.slot heq)
        · exact Or.inr ⟨d, hd, hold⟩
  | keep before sub ih => exact ih hx

/-- A nonterminal is listed when its slot is populated. -/
theorem Course.mem_populated_iff_isPopulated (h : Course t chain gate c es)
    (hg : t.grammar.WellFormed) {start stop : Nat} (hspan : IsSpan c.size start stop)
    {nt : NonTerminal} :
    nt ∈ c.populated start stop ↔
      nt < c.symbols ∧ c.isPopulated start stop nt = true := by
  induction h with
  | start =>
      have hnone : (empty t.grammar t.sentence.size chain).isPopulated start stop nt = false := by
        rw [isPopulated_eq _ ⟨start, stop, nt⟩, layerAt_empty]
        rfl
      rw [populated, cell_empty, hnone]
      exact iff_of_false List.not_mem_nil fun hpop => Bool.false_ne_true hpop.2
  | make before licensed score_eq ih => exact ih hspan
  | @commit c es e before mem passes ih =>
      obtain ⟨hlinked, hhand⟩ := before.linked hg
      have htarget := (hhand e mem).1.hasTarget hg hlinked.isFor
      have hold := ih hspan
      have hnew : c.isNew e = true ↔ ¬ c.isPopulated e.start e.stop e.parent = true := by
        rw [isNew_eq, Bool.not_eq_true', Bool.not_eq_true]
        rfl
      have hstored : nt < c.symbols → ((c.store t.grammar e).isPopulated start stop nt = true ↔
          (⟨start, stop, nt⟩ : Slot) = e.slot ∨ c.isPopulated start stop nt = true) :=
        fun hnt => isPopulated_store hlinked.shaped htarget (x := ⟨start, stop, nt⟩) ⟨hspan, hnt⟩
      change _ ↔ nt < c.symbols ∧ _
      rw [and_congr_right hstored, populated, cell_store hlinked.shaped.sized htarget hspan]
      split
      · next hcell =>
        obtain ⟨⟨rfl, rfl⟩, hisNew⟩ := hcell
        change nt ∈ (Array.push _ e.parent).toList ↔ _
        rw [Array.toList_push, List.mem_append, List.mem_singleton]
        change nt ∈ c.populated e.start e.stop ∨ _ ↔ _
        rw [hold]
        constructor
        · rintro (⟨hnt, hpop⟩ | rfl)
          · exact ⟨hnt, Or.inr hpop⟩
          · exact ⟨htarget.1.2, Or.inl rfl⟩
        · rintro ⟨hnt, heq | hpop⟩
          · exact Or.inr (congrArg Slot.symbol heq)
          · exact Or.inl ⟨hnt, hpop⟩
      · next hcell =>
        change nt ∈ c.populated start stop ↔ _
        rw [hold]
        refine and_congr_right fun _ => ⟨Or.inr, ?_⟩
        rintro (heq | hpop)
        · -- The slot of the edge was not new.
          cases heq
          by_contra hnone
          exact hcell ⟨⟨rfl, rfl⟩, hnew.2 hnone⟩
        · exact hpop
  | keep before sub ih => exact ih hspan

/-- A nonterminal is listed when one of its layers holds an edge. -/
theorem Course.mem_populated_iff (h : Course t chain gate c es) (hg : t.grammar.WellFormed)
    {start stop : Nat} (hspan : IsSpan c.size start stop) {nt : NonTerminal} :
    nt ∈ c.populated start stop ↔
      nt < c.symbols ∧ ∃ d ≤ chain, c.Holds ⟨⟨start, stop, nt⟩, d⟩ := by
  rw [h.mem_populated_iff_isPopulated hg hspan]
  exact and_congr_right fun hnt => h.isPopulated_iff hg (x := ⟨start, stop, nt⟩) ⟨hspan, hnt⟩

end Chart
end BestParse
