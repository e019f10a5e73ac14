import BestParse.Chart.Basic
import BestParse.Proofs.Chart.Address
import BestParse.Proofs.Score.Order

/-!
# Reading a chart after a commit

A commit writes one layer, one slot and one cell.  The three reading lemmas
`layerAt_store`, `bestOfSlot_store` and `cell_store` say what is read afterwards,
and nothing else in the project looks at the arrays of a chart.

Targets and slots are the addresses here: `scoreAt` is the score of a target and
`bestAt` the score of a slot.
-/

namespace BestParse
namespace Chart

/-! ## Addresses of a chart -/

/-- The chart has the slot. -/
def HasSlot (c : Chart) (x : Slot) : Prop := IsSpan c.size x.start x.stop ∧ x.symbol < c.symbols

/-- The chart has the target. -/
def HasTarget (c : Chart) (τ : Target) : Prop := c.HasSlot τ.slot ∧ τ.layer ≤ c.maxChain

/-- The layer of a target. -/
def layerAt (c : Chart) (τ : Target) : Layer :=
  c.layer τ.slot.start τ.slot.stop τ.slot.symbol τ.layer

/-- The score of a target. -/
def scoreAt (c : Chart) (τ : Target) : Score := (c.layerAt τ).inside

/-- The best layer of a slot and its score. -/
def bestOfSlot (c : Chart) (x : Slot) : Best := c.bestOf x.start x.stop x.symbol

/-- The score of a slot. -/
def bestAt (c : Chart) (x : Slot) : Score := (c.bestOfSlot x).inside

/-- The target of a slot's best layer. -/
def topOf (c : Chart) (x : Slot) : Target := ⟨x, (c.bestOfSlot x).layer⟩

theorem layerInside_eq (c : Chart) (start stop : Nat) (nt : NonTerminal) (d : Nat) :
    c.layerInside start stop nt d = c.scoreAt ⟨⟨start, stop, nt⟩, d⟩ := rfl

theorem inside_eq (c : Chart) (start stop : Nat) (nt : NonTerminal) :
    c.inside start stop nt = c.bestAt ⟨start, stop, nt⟩ := rfl

theorem fom_eq (c : Chart) (start stop : Nat) (nt : NonTerminal) :
    c.fom start stop nt = (c.layerAt (c.topOf ⟨start, stop, nt⟩)).fom := rfl

/-- The arrays have room for every address. -/
structure WellSized (c : Chart) : Prop where
  best_size : c.best.size = Address.cells c.size * c.symbols
  layers_size : c.layers.size = Address.cells c.size * c.symbols * (c.maxChain + 1)
  cells_size : c.cells.size = Address.cells c.size

theorem wellSized_empty (g : Grammar) (size maxChain : Nat) :
    (empty g size maxChain).WellSized where
  best_size := by simp [empty]
  layers_size := by simp [empty]
  cells_size := by simp [empty]

theorem WellSized.store {c : Chart} (h : c.WellSized) (g : Grammar) (e : Edge) :
    (c.store g e).WellSized where
  best_size := by simpa using h.best_size
  layers_size := by simpa using h.layers_size
  cells_size := by simpa using h.cells_size

/-! ## Arrays written at one place -/

theorem getD_setIfInBounds {α : Type} {a : Array α} {i j : Nat} (hi : i < a.size) (x d : α) :
    (a.setIfInBounds i x).getD j d = if i = j then x else a.getD j d := by
  rw [Array.getD_eq_getD_getElem?, Array.getD_eq_getD_getElem?, Array.getElem?_setIfInBounds,
    if_pos hi]
  split <;> rfl

theorem getD_modify {α : Type} {a : Array α} {i j : Nat} (hi : i < a.size) (f : α → α) (d : α) :
    (a.modify i f).getD j d = if i = j then f (a.getD j d) else a.getD j d := by
  rw [Array.getD_eq_getD_getElem?, Array.getD_eq_getD_getElem?, Array.getElem?_modify]
  split
  · next h =>
    subst h
    simp [hi]
  · rfl

/-! ## What a commit changes -/

/-- Nothing was committed to the slot of an edge before. -/
def isNew (c : Chart) (e : Edge) : Bool := (c.edge e.start e.stop e.parent).isNone

/-- An edge raises the score of its slot. -/
def raises (c : Chart) (e : Edge) : Bool :=
  c.isNew e || e.inside.improves (c.inside e.start e.stop e.parent)

theorem commit_eq (g : Grammar) (c : Chart) (e : Edge) :
    c.commit g e = (⟨c.isNew e, c.raises e⟩, c.store g e) := rfl

variable {c : Chart} {g : Grammar} {e : Edge}

theorem layerIndex_inj {τ τ' : Target} (h : c.HasTarget τ) (h' : c.HasTarget τ')
    (heq : c.layerIndex τ.slot.start τ.slot.stop τ.slot.symbol τ.layer =
      c.layerIndex τ'.slot.start τ'.slot.stop τ'.slot.symbol τ'.layer) : τ = τ' := by
  obtain ⟨⟨start, stop, nt⟩, d⟩ := τ
  obtain ⟨⟨start', stop', nt'⟩, d'⟩ := τ'
  obtain ⟨⟨hspan, hnt⟩, hd⟩ := h
  obtain ⟨⟨hspan', hnt'⟩, hd'⟩ := h'
  obtain ⟨hslot, hlayer⟩ := Address.mul_add_inj (Nat.lt_succ_of_le hd) (Nat.lt_succ_of_le hd') heq
  obtain ⟨hstart, hstop, hsymbol⟩ := Address.slot_inj hspan hspan' hnt hnt' hslot
  simp_all

theorem slotIndex_inj {x x' : Slot} (h : c.HasSlot x) (h' : c.HasSlot x')
    (heq : c.slotIndex x.start x.stop x.symbol = c.slotIndex x'.start x'.stop x'.symbol) :
    x = x' := by
  obtain ⟨start, stop, nt⟩ := x
  obtain ⟨start', stop', nt'⟩ := x'
  obtain ⟨hstart, hstop, hsymbol⟩ := Address.slot_inj h.1 h'.1 h.2 h'.2 heq
  simp_all

/-- After a commit, its target holds the edge and every other layer is as before. -/
theorem layerAt_store (hc : c.WellSized) (he : c.HasTarget e.target) {τ : Target}
    (hτ : c.HasTarget τ) :
    (c.store g e).layerAt τ =
      if τ = e.target then ⟨e.inside, e.fom, some e⟩ else c.layerAt τ := by
  have hplace : c.layerIndex e.start e.stop e.parent e.layer < c.layers.size := by
    rw [hc.layers_size]
    exact Address.layer_lt (Address.slot_lt he.1.1 he.1.2) (Nat.lt_succ_of_le he.2)
  change (c.layers.setIfInBounds _ _).getD _ _ = _
  rw [getD_setIfInBounds hplace]
  by_cases hτe : τ = e.target
  · subst hτe
    simp only [if_true]
    exact if_pos rfl
  · simp only [hτe, if_false]
    refine if_neg ?_
    intro heq
    exact hτe (layerIndex_inj he hτ heq).symm

/-- After a commit, a slot that the edge raises has the edge's score. -/
theorem bestOfSlot_store (hc : c.WellSized) (he : c.HasTarget e.target) {x : Slot}
    (hx : c.HasSlot x) :
    (c.store g e).bestOfSlot x =
      if x = e.slot ∧ c.raises e = true then ⟨e.inside, e.layer⟩ else c.bestOfSlot x := by
  have hplace : c.slotIndex e.start e.stop e.parent < c.best.size := by
    rw [hc.best_size]
    exact Address.slot_lt he.1.1 he.1.2
  change (if c.raises e then c.best.setIfInBounds _ _ else c.best).getD _ _ = _
  by_cases hraises : c.raises e = true
  · rw [if_pos hraises, getD_setIfInBounds hplace]
    by_cases hxe : x = e.slot
    · subst hxe
      simp only [hraises, and_self, if_true]
      exact if_pos rfl
    · simp only [hxe, false_and, if_false]
      refine if_neg ?_
      intro heq
      exact hxe (slotIndex_inj (x := e.slot) he.1 hx heq).symm
  · rw [if_neg hraises, if_neg (fun h => hraises h.2)]
    rfl

/-- After a commit, the cell of a newly populated slot lists its nonterminal. -/
theorem cell_store (hc : c.WellSized) (he : c.HasTarget e.target) {start stop : Nat}
    (hspan : IsSpan c.size start stop) :
    (c.store g e).cell start stop =
      if (start = e.start ∧ stop = e.stop) ∧ c.isNew e = true
      then Cell.add g e.parent (c.cell start stop) else c.cell start stop := by
  have hplace : c.cellIndex e.start e.stop < c.cells.size := by
    rw [hc.cells_size]
    exact Address.cell_lt he.1.1
  change (if c.isNew e then c.cells.modify _ _ else c.cells).getD _ _ = _
  by_cases hnew : c.isNew e = true
  · rw [if_pos hnew, getD_modify hplace]
    by_cases hse : start = e.start ∧ stop = e.stop
    · obtain ⟨rfl, rfl⟩ := hse
      simp only [hnew, and_self, if_true]
      exact if_pos rfl
    · simp only [hse, false_and, if_false]
      refine if_neg ?_
      intro heq
      obtain ⟨hstart, hstop⟩ := Address.cell_inj he.1.1 hspan heq
      exact hse ⟨hstart.symm, hstop.symm⟩
  · rw [if_neg hnew, if_neg (fun h => hnew h.2)]
    rfl

/-! ## Charts in shape -/

/-- The arrays have room and the best layers exist.  Every commit keeps this, improving
or not. -/
structure Shaped (c : Chart) : Prop where
  sized : c.WellSized
  depth_le : ∀ x, c.HasSlot x → (c.bestOfSlot x).layer ≤ c.maxChain

theorem Shaped.store (h : c.Shaped) (he : c.HasTarget e.target) : (c.store g e).Shaped where
  sized := h.sized.store g e
  depth_le x hx := by
    rw [bestOfSlot_store h.sized he hx]
    split
    · exact he.2
    · exact h.depth_le x hx

theorem isPopulated_eq (c : Chart) (x : Slot) :
    c.isPopulated x.start x.stop x.symbol = (c.layerAt (c.topOf x)).edge.isSome := rfl

theorem isNew_eq (c : Chart) (e : Edge) :
    c.isNew e = !c.isPopulated e.slot.start e.slot.stop e.slot.symbol := by
  change (c.edge e.start e.stop e.parent).isNone = !(c.edge e.start e.stop e.parent).isSome
  cases c.edge e.start e.stop e.parent <;> rfl

/-- A commit populates its slot, and no slot is ever emptied. -/
theorem isPopulated_store (h : c.Shaped) (he : c.HasTarget e.target) {x : Slot}
    (hx : c.HasSlot x) :
    (c.store g e).isPopulated x.start x.stop x.symbol = true ↔
      x = e.slot ∨ c.isPopulated x.start x.stop x.symbol = true := by
  have htop : c.HasTarget (c.topOf x) := ⟨hx, h.depth_le x hx⟩
  rw [isPopulated_eq, isPopulated_eq]
  by_cases hraised : x = e.slot ∧ c.raises e = true
  · have htopOf : (c.store g e).topOf x = e.target := by
      rw [topOf, bestOfSlot_store h.sized he hx, if_pos hraised, hraised.1]
      rfl
    rw [htopOf, layerAt_store h.sized he he, if_pos rfl]
    exact ⟨fun _ => Or.inl hraised.1, fun _ => rfl⟩
  · have htopOf : (c.store g e).topOf x = c.topOf x := by
      rw [topOf, bestOfSlot_store h.sized he hx, if_neg hraised]
      rfl
    rw [htopOf, layerAt_store h.sized he htop]
    split
    · next heq => exact ⟨fun _ => Or.inl (congrArg Target.slot heq), fun _ => rfl⟩
    · refine ⟨Or.inr, ?_⟩
      rintro (rfl | hpopulated)
      · -- A new slot would have been raised.
        have hnew : c.isNew e = false := by
          cases hn : c.isNew e with
          | false => rfl
          | true => exact absurd ⟨rfl, by rw [raises, hn, Bool.true_or]⟩ hraised
        rw [isNew_eq, Bool.not_eq_false', isPopulated_eq] at hnew
        exact hnew
      · exact hpopulated

end Chart
end BestParse
