import BestParse.Proofs.Chart.Commit

/-!
# Coherent charts

A chart is *coherent* when the score of every slot is the greatest of its layers'
scores and stands in the layer recorded as the best, a layer has an edge exactly
when it is reachable, and the lists of a cell name its reachable slots.

Coherence holds of the empty chart (`coherent_empty`) and is kept by every commit of
an edge that improves its layer (`Coherent.store`).  Such a commit never lowers a
score (`Coherent.grows_store`).
-/

namespace BestParse
namespace Chart

/-- Slots, layers and lists tell the same story. -/
structure Coherent (g : Grammar) (c : Chart) : Prop where
  sized : c.WellSized
  number : ∀ τ, c.HasTarget τ → c.scoreAt τ ≠ .nan
  edge_iff : ∀ τ, c.HasTarget τ →
    ((c.layerAt τ).edge.isSome = true ↔ (c.scoreAt τ).isReachable = true)
  depth_le : ∀ x, c.HasSlot x → (c.bestOfSlot x).layer ≤ c.maxChain
  best_eq : ∀ x, c.HasSlot x → c.bestAt x = c.scoreAt (c.topOf x)
  score_le : ∀ τ, c.HasTarget τ → (c.scoreAt τ).rank ≤ (c.bestAt τ.slot).rank
  populated_iff : ∀ start stop nt, IsSpan c.size start stop →
    (nt ∈ c.populated start stop ↔
      nt < c.symbols ∧ (c.bestAt ⟨start, stop, nt⟩).isReachable = true)
  nodup : ∀ start stop, IsSpan c.size start stop → (c.populated start stop).Nodup
  left_eq : ∀ start stop, IsSpan c.size start stop →
    c.leftChildren start stop = (c.populated start stop).filter g.isLeftChild
  right_eq : ∀ start stop, IsSpan c.size start stop →
    c.rightChildren start stop = (c.populated start stop).filter g.isRightChild

/-- No score is lower in the second chart. -/
structure Grows (c c' : Chart) : Prop where
  size_eq : c'.size = c.size
  symbols_eq : c'.symbols = c.symbols
  maxChain_eq : c'.maxChain = c.maxChain
  score_le : ∀ τ, c.HasTarget τ → (c.scoreAt τ).rank ≤ (c'.scoreAt τ).rank
  best_le : ∀ x, c.HasSlot x → (c.bestAt x).rank ≤ (c'.bestAt x).rank

theorem Grows.refl (c : Chart) : c.Grows c :=
  ⟨rfl, rfl, rfl, fun _ _ => Int.le_refl _, fun _ _ => Int.le_refl _⟩

theorem Grows.hasSlot {c c' : Chart} (h : c.Grows c') {x : Slot} : c'.HasSlot x ↔ c.HasSlot x := by
  rw [HasSlot, HasSlot, h.size_eq, h.symbols_eq]

theorem Grows.hasTarget {c c' : Chart} (h : c.Grows c') {τ : Target} :
    c'.HasTarget τ ↔ c.HasTarget τ := by
  rw [HasTarget, HasTarget, h.hasSlot, h.maxChain_eq]

theorem Grows.trans {c c' c'' : Chart} (h : c.Grows c') (h' : c'.Grows c'') : c.Grows c'' where
  size_eq := h'.size_eq.trans h.size_eq
  symbols_eq := h'.symbols_eq.trans h.symbols_eq
  maxChain_eq := h'.maxChain_eq.trans h.maxChain_eq
  score_le τ hτ := Int.le_trans (h.score_le τ hτ) (h'.score_le τ (h.hasTarget.2 hτ))
  best_le x hx := Int.le_trans (h.best_le x hx) (h'.best_le x (h.hasSlot.2 hx))

/-! ## The empty chart -/

theorem getD_replicate {α : Type} (n i : Nat) (a : α) : (Array.replicate n a).getD i a = a := by
  rw [Array.getD_eq_getD_getElem?, Array.getElem?_replicate]
  split <;> rfl

theorem layerAt_empty (g : Grammar) (size maxChain : Nat) (τ : Target) :
    (empty g size maxChain).layerAt τ = {} :=
  getD_replicate _ _ _

theorem bestOfSlot_empty (g : Grammar) (size maxChain : Nat) (x : Slot) :
    (empty g size maxChain).bestOfSlot x = {} :=
  getD_replicate _ _ _

theorem cell_empty (g : Grammar) (size maxChain start stop : Nat) :
    (empty g size maxChain).cell start stop = {} :=
  getD_replicate _ _ _

theorem coherent_empty (g : Grammar) (size maxChain : Nat) :
    (empty g size maxChain).Coherent g where
  sized := wellSized_empty g size maxChain
  number τ _ := by
    rw [scoreAt, layerAt_empty]
    exact nofun
  edge_iff τ _ := by
    rw [scoreAt, layerAt_empty]
    decide
  depth_le x _ := by
    rw [bestOfSlot_empty]
    exact Nat.zero_le _
  best_eq x _ := by
    rw [bestAt, bestOfSlot_empty, scoreAt, layerAt_empty]
  score_le τ _ := by
    exact Int.le_of_eq (by rw [bestAt, bestOfSlot_empty, scoreAt, layerAt_empty])
  populated_iff start stop nt _ := by
    rw [populated, cell_empty, bestAt, bestOfSlot_empty]
    constructor
    · intro h
      cases h
    · rintro ⟨-, h⟩
      cases h
  nodup start stop _ := by
    rw [populated, cell_empty]
    exact List.nodup_nil
  left_eq start stop _ := by
    rw [populated, leftChildren, cell_empty]
    rfl
  right_eq start stop _ := by
    rw [populated, rightChildren, cell_empty]
    rfl

/-! ## Commits of improving edges -/

section

variable {g : Grammar} {c : Chart} {e : Edge}

theorem scoreAt_store (hc : c.WellSized) (he : c.HasTarget e.target) {τ : Target}
    (hτ : c.HasTarget τ) :
    (c.store g e).scoreAt τ = if τ = e.target then e.inside else c.scoreAt τ := by
  rw [scoreAt, layerAt_store hc he hτ]
  split <;> rfl

theorem bestAt_store (hc : c.WellSized) (he : c.HasTarget e.target) {x : Slot}
    (hx : c.HasSlot x) :
    (c.store g e).bestAt x =
      if x = e.slot ∧ c.raises e = true then e.inside else c.bestAt x := by
  rw [bestAt, bestOfSlot_store hc he hx]
  split <;> rfl

theorem topOf_store (hc : c.WellSized) (he : c.HasTarget e.target) {x : Slot}
    (hx : c.HasSlot x) :
    (c.store g e).topOf x =
      if x = e.slot ∧ c.raises e = true then e.target else c.topOf x := by
  rw [topOf, bestOfSlot_store hc he hx]
  split
  · next h => rw [h.1]; rfl
  · rfl

namespace Coherent

theorem shaped (h : c.Coherent g) : c.Shaped := ⟨h.sized, h.depth_le⟩

theorem hasTarget_topOf (h : c.Coherent g) {x : Slot} (hx : c.HasSlot x) :
    c.HasTarget (c.topOf x) :=
  ⟨hx, h.depth_le x hx⟩

theorem best_number (h : c.Coherent g) {x : Slot} (hx : c.HasSlot x) : c.bestAt x ≠ .nan := by
  rw [h.best_eq x hx]
  exact h.number _ (h.hasTarget_topOf hx)

theorem isPopulated_iff (h : c.Coherent g) {x : Slot} (hx : c.HasSlot x) :
    c.isPopulated x.start x.stop x.symbol = true ↔ (c.bestAt x).isReachable = true := by
  rw [h.best_eq x hx, ← h.edge_iff _ (h.hasTarget_topOf hx)]
  rfl

/-- A slot is new as long as it is unreachable. -/
theorem isNew_iff (h : c.Coherent g) (he : c.HasSlot e.slot) :
    c.isNew e = true ↔ ¬ (c.bestAt e.slot).isReachable = true := by
  rw [← h.isPopulated_iff he]
  change (c.edge e.start e.stop e.parent).isNone = true ↔
    ¬ (c.edge e.start e.stop e.parent).isSome = true
  cases c.edge e.start e.stop e.parent <;> simp

theorem isReachable_of_accepts (hacc : c.accepts e = true) : e.inside.isReachable = true :=
  Score.isReachable_of_improves hacc

/-- An edge that improves its layer raises its slot when it improves the slot. -/
theorem raises_iff (h : c.Coherent g) (he : c.HasSlot e.slot) (hacc : c.accepts e = true) :
    c.raises e = true ↔ e.inside.improves (c.bestAt e.slot) = true := by
  change (c.isNew e || e.inside.improves (c.bestAt e.slot)) = true ↔ _
  rw [Bool.or_eq_true, or_iff_right_iff_imp]
  intro hnew
  have hun := Score.eq_unreachable_of_not_isReachable (h.best_number he) ((h.isNew_iff he).1 hnew)
  rw [hun]
  exact isReachable_of_accepts hacc

/-- A commit of an improving edge lowers nothing. -/
theorem grows_store (h : c.Coherent g) (he : c.HasTarget e.target) (hacc : c.accepts e = true) :
    c.Grows (c.store g e) where
  size_eq := rfl
  symbols_eq := rfl
  maxChain_eq := rfl
  score_le τ hτ := by
    rw [scoreAt_store h.sized he hτ]
    split
    · next heq =>
      subst heq
      exact Int.le_of_lt (Score.improves_iff.1 hacc).2.2
    · exact Int.le_refl _
  best_le x hx := by
    rw [bestAt_store h.sized he hx]
    split
    · next heq =>
      obtain ⟨rfl, hraises⟩ := heq
      exact Int.le_of_lt (Score.improves_iff.1 ((h.raises_iff hx hacc).1 hraises)).2.2
    · exact Int.le_refl _

/-- The edge's score is reached by its slot. -/
theorem inside_le_bestAt_store (h : c.Coherent g) (he : c.HasTarget e.target)
    (hacc : c.accepts e = true) : e.inside.rank ≤ ((c.store g e).bestAt e.slot).rank := by
  rw [bestAt_store (x := e.slot) h.sized he he.1]
  by_cases hraises : c.raises e = true
  · exact Int.le_of_eq (by rw [if_pos ⟨rfl, hraises⟩])
  · rw [if_neg (fun hr => hraises hr.2)]
    rw [h.raises_iff he.1 hacc] at hraises
    exact Score.rank_le_of_not_improves (Score.improves_iff.1 hacc).1 (h.best_number he.1) hraises

theorem populated_store (h : c.Coherent g) (he : c.HasTarget e.target) {start stop : Nat}
    (hspan : IsSpan c.size start stop) :
    (c.store g e).populated start stop =
      if (start = e.start ∧ stop = e.stop) ∧ c.isNew e = true
      then c.populated start stop ++ [e.parent] else c.populated start stop := by
  rw [populated, cell_store h.sized he hspan]
  split
  · exact Array.toList_push
  · rfl

theorem not_mem_populated_of_isNew (h : c.Coherent g) (he : c.HasSlot e.slot)
    (hnew : c.isNew e = true) : e.parent ∉ c.populated e.start e.stop := by
  intro hmem
  exact (h.isNew_iff he).1 hnew ((h.populated_iff _ _ _ he.1).1 hmem).2

/-- The cells list the reachable slots after the commit of an improving edge too. -/
theorem mem_populated_store (h : c.Coherent g) (he : c.HasTarget e.target)
    (hacc : c.accepts e = true) {x : Slot} (hspan : IsSpan c.size x.start x.stop) :
    x.symbol ∈ (c.store g e).populated x.start x.stop ↔
      x.symbol < c.symbols ∧ ((c.store g e).bestAt x).isReachable = true := by
  have hold := h.populated_iff x.start x.stop x.symbol hspan
  rw [h.populated_store he hspan]
  by_cases hx : x = e.slot
  · -- The edge's own slot is populated now, whether it was before or not.
    subst hx
    have hreach : ((c.store g e).bestAt e.slot).isReachable = true := by
      refine Score.isReachable_mono (isReachable_of_accepts hacc) ?_
        (h.inside_le_bestAt_store he hacc)
      rw [bestAt_store (x := e.slot) h.sized he he.1]
      split
      · exact (Score.improves_iff.1 hacc).1
      · exact h.best_number he.1
    refine ⟨fun _ => ⟨he.1.2, hreach⟩, fun _ => ?_⟩
    by_cases hnew : c.isNew e = true
    · rw [if_pos ⟨⟨rfl, rfl⟩, hnew⟩]
      exact List.mem_append_right _ (List.mem_singleton_self _)
    · rw [if_neg (fun hn => hnew hn.2)]
      rw [h.isNew_iff he.1, Classical.not_not] at hnew
      exact hold.2 ⟨he.1.2, hnew⟩
  · have hbest : x.symbol < c.symbols ∧ ((c.store g e).bestAt x).isReachable = true ↔
        x.symbol < c.symbols ∧ (c.bestAt x).isReachable = true := by
      refine and_congr_right fun hsymbol => ?_
      rw [bestAt_store h.sized he ⟨hspan, hsymbol⟩, if_neg (fun hr => hx hr.1)]
    rw [hbest]
    split
    · next hcell =>
      have hne : x.symbol ≠ e.parent := by
        intro hsymbol
        apply hx
        obtain ⟨start, stop, nt⟩ := x
        obtain ⟨⟨rfl, rfl⟩, -⟩ := hcell
        cases hsymbol
        rfl
      rw [List.mem_append, List.mem_singleton]
      exact ⟨fun hmem => hold.1 (hmem.resolve_right hne), fun hr => Or.inl (hold.2 hr)⟩
    · exact hold

/-- Coherence is kept by the commit of an improving edge. -/
theorem store (h : c.Coherent g) (he : c.HasTarget e.target) (hacc : c.accepts e = true) :
    (c.store g e).Coherent g where
  sized := h.sized.store g e
  number τ hτ := by
    rw [scoreAt_store h.sized he hτ]
    split
    · exact (Score.improves_iff.1 hacc).1
    · exact h.number τ hτ
  edge_iff τ hτ := by
    rw [scoreAt, layerAt_store h.sized he hτ]
    split
    · simp [isReachable_of_accepts hacc]
    · exact h.edge_iff τ hτ
  depth_le x hx := by
    rw [bestOfSlot_store h.sized he hx]
    split
    · exact he.2
    · exact h.depth_le x hx
  best_eq x hx := by
    rw [bestAt_store h.sized he hx, topOf_store h.sized he hx]
    by_cases hraised : x = e.slot ∧ c.raises e = true
    · rw [if_pos hraised, if_pos hraised, scoreAt_store h.sized he he, if_pos rfl]
    · rw [if_neg hraised, if_neg hraised, scoreAt_store h.sized he (h.hasTarget_topOf hx)]
      -- The edge cannot have improved the slot's best layer without raising the slot.
      have hne : c.topOf x ≠ e.target := by
        intro heq
        have hx' : x = e.slot := congrArg Target.slot heq
        refine hraised ⟨hx', ?_⟩
        rw [h.raises_iff he.1 hacc, ← hx', h.best_eq x hx, heq]
        exact hacc
      rw [if_neg hne]
      exact h.best_eq x hx
  score_le τ hτ := by
    rw [scoreAt_store h.sized he hτ]
    split
    · next heq =>
      subst heq
      exact h.inside_le_bestAt_store he hacc
    · exact Int.le_trans (h.score_le τ hτ) ((h.grows_store he hacc).best_le _ hτ.1)
  populated_iff start stop nt hspan := h.mem_populated_store he hacc (x := ⟨start, stop, nt⟩) hspan
  nodup start stop hspan := by
    rw [h.populated_store he hspan]
    split
    · next hcell =>
      obtain ⟨⟨rfl, rfl⟩, hnew⟩ := hcell
      rw [List.nodup_append]
      refine ⟨h.nodup _ _ hspan, by simp, ?_⟩
      intro nt hnt nt' hnt' heq
      rw [List.mem_singleton] at hnt'
      subst hnt'
      subst heq
      exact h.not_mem_populated_of_isNew he.1 hnew hnt
    · exact h.nodup _ _ hspan
  left_eq start stop hspan := by
    rw [h.populated_store he hspan, leftChildren, cell_store h.sized he hspan]
    split
    · rw [List.filter_append, ← h.left_eq _ _ hspan]
      change (if g.isLeftChild e.parent then _ else _ : Array NonTerminal).toList = _
      split
      · next hchild => simp [hchild, leftChildren]
      · next hchild => simp [hchild, leftChildren]
    · exact h.left_eq _ _ hspan
  right_eq start stop hspan := by
    rw [h.populated_store he hspan, rightChildren, cell_store h.sized he hspan]
    split
    · rw [List.filter_append, ← h.right_eq _ _ hspan]
      change (if g.isRightChild e.parent then _ else _ : Array NonTerminal).toList = _
      split
      · next hchild => simp [hchild, rightChildren]
      · next hchild => simp [hchild, rightChildren]
    · exact h.right_eq _ _ hspan

end Coherent

end

end Chart
end BestParse
