import BestParse.Proofs.Chart.Log
import BestParse.Proofs.Chart.Records

/-!
# What a commit leaves alone

A commit writes one layer, perhaps the best of its slot, and perhaps the lists of its cell.  All
slots share the arrays of the chart, so that it leaves everything else alone rests on different
addresses having different places.

`commit_frame` says all of this for one commit to any chart, improving or not.  For several commits
it is enough to know where they aim (`Aims`): what none of them aims at is as it was
(`Aims.layerAt_replay`, `Aims.bestOfSlot_replay`, `Aims.cell_replay`).
-/

namespace BestParse

theorem toList_push_if {α : Type} (p : Prop) [Decidable p] (a : Array α) (x : α) :
    (if p then a.push x else a).toList = a.toList ++ (if p then [x] else []) := by
  split
  · exact Array.toList_push
  · exact (List.append_nil _).symm

/-- What is added to the lists of a cell stands at their ends. -/
theorem Cell.add_lists (g : Grammar) (nt : NonTerminal) (cell : Cell) :
    (cell.add g nt).populated.toList = cell.populated.toList ++ [nt] ∧
    (cell.add g nt).left.toList =
      cell.left.toList ++ (if g.isLeftChild nt = true then [nt] else []) ∧
    (cell.add g nt).right.toList =
      cell.right.toList ++ (if g.isRightChild nt = true then [nt] else []) :=
  ⟨Array.toList_push, toList_push_if _ _ _, toList_push_if _ _ _⟩

namespace Chart

variable {g : Grammar} {c : Chart} {e : Edge}

/-! ## One commit -/

section

variable (hc : c.WellSized) (he : c.HasTarget e.target)

include hc he

theorem layerAt_store_of_ne {τ : Target} (hτ : c.HasTarget τ) (hne : τ ≠ e.target) :
    (c.store g e).layerAt τ = c.layerAt τ := by
  rw [layerAt_store hc he hτ, if_neg hne]

theorem bestOfSlot_store_of_ne {x : Slot} (hx : c.HasSlot x) (hne : x ≠ e.slot) :
    (c.store g e).bestOfSlot x = c.bestOfSlot x := by
  rw [bestOfSlot_store hc he hx, if_neg fun h => hne h.1]

theorem cell_store_of_ne {start stop : Nat} (hspan : IsSpan c.size start stop)
    (hne : (start, stop) ≠ (e.start, e.stop)) :
    (c.store g e).cell start stop = c.cell start stop := by
  rw [cell_store hc he hspan, if_neg fun h => hne (Prod.ext h.1.1 h.1.2)]

end

/-- The best layer of another slot is where it was, and holds what it held. -/
theorem Shaped.layerAt_topOf_store (h : c.Shaped) (he : c.HasTarget e.target) {x : Slot}
    (hx : c.HasSlot x) (hne : x ≠ e.slot) :
    (c.store g e).layerAt ((c.store g e).topOf x) = c.layerAt (c.topOf x) := by
  have htop : (c.store g e).topOf x = c.topOf x := by
    rw [topOf, bestOfSlot_store_of_ne h.sized he hx hne]
    rfl
  rw [htop]
  exact layerAt_store_of_ne h.sized he ⟨hx, h.depth_le x hx⟩
    fun heq => hne (congrArg Target.slot heq)

/-- The lists of the edge's own cell grow by its parent if that was not populated, and are the same
if it was. -/
theorem cell_store_self (hc : c.WellSized) (he : c.HasTarget e.target) :
    (c.store g e).cell e.start e.stop =
      if c.isPopulated e.start e.stop e.parent = true then c.cell e.start e.stop
      else Cell.add g e.parent (c.cell e.start e.stop) := by
  have hspan : IsSpan c.size e.start e.stop := he.1.1
  have hnew : c.isNew e = !c.isPopulated e.start e.stop e.parent := isNew_eq c e
  rw [cell_store hc he hspan, hnew]
  cases c.isPopulated e.start e.stop e.parent <;> simp

/-- A commit to any chart stores the edge in its layer and leaves all other layers, all other slots
and the lists of all other cells as they are.  The lists of its own cell grow at the end, by its
parent, if and only if the slot was not populated. -/
theorem commit_frame {size chain : Nat} (hc : Committed g size chain (fun _ _ => True) c)
    (hspan : IsSpan size e.start e.stop) (hparent : e.parent < g.numNonterminals)
    (hlayer : e.layer ≤ chain) :
    ((c.commit g e).2.layerInside e.start e.stop e.parent e.layer = e.inside ∧
      (c.commit g e).2.layerFom e.start e.stop e.parent e.layer = e.fom ∧
      (c.commit g e).2.layerEdge e.start e.stop e.parent e.layer = some e) ∧
    (∀ start stop nt depth, IsSpan size start stop → nt < g.numNonterminals → depth ≤ chain →
      (⟨⟨start, stop, nt⟩, depth⟩ : Target) ≠ e.target →
      (c.commit g e).2.layerInside start stop nt depth = c.layerInside start stop nt depth ∧
      (c.commit g e).2.layerFom start stop nt depth = c.layerFom start stop nt depth ∧
      (c.commit g e).2.layerEdge start stop nt depth = c.layerEdge start stop nt depth) ∧
    (∀ start stop nt, IsSpan size start stop → nt < g.numNonterminals →
      (⟨start, stop, nt⟩ : Slot) ≠ e.slot →
      (c.commit g e).2.inside start stop nt = c.inside start stop nt ∧
      (c.commit g e).2.fom start stop nt = c.fom start stop nt ∧
      (c.commit g e).2.edge start stop nt = c.edge start stop nt ∧
      (c.commit g e).2.unaryDepth start stop nt = c.unaryDepth start stop nt) ∧
    (∀ start stop, IsSpan size start stop → (start, stop) ≠ (e.start, e.stop) →
      (c.commit g e).2.populated start stop = c.populated start stop ∧
      (c.commit g e).2.leftChildren start stop = c.leftChildren start stop ∧
      (c.commit g e).2.rightChildren start stop = c.rightChildren start stop) ∧
    (c.commit g e).1.isNew = !c.isPopulated e.start e.stop e.parent ∧
    (c.isPopulated e.start e.stop e.parent = true →
      (c.commit g e).2.populated e.start e.stop = c.populated e.start e.stop ∧
      (c.commit g e).2.leftChildren e.start e.stop = c.leftChildren e.start e.stop ∧
      (c.commit g e).2.rightChildren e.start e.stop = c.rightChildren e.start e.stop) ∧
    (c.isPopulated e.start e.stop e.parent = false →
      (c.commit g e).2.populated e.start e.stop = c.populated e.start e.stop ++ [e.parent] ∧
      (c.commit g e).2.leftChildren e.start e.stop = c.leftChildren e.start e.stop ++
        (if g.isLeftChild e.parent = true then [e.parent] else []) ∧
      (c.commit g e).2.rightChildren e.start e.stop = c.rightChildren e.start e.stop ++
        (if g.isRightChild e.parent = true then [e.parent] else [])) := by
  have hshaped := hc.shaped
  have hsized := hshaped.sized
  have he : c.HasTarget e.target := hc.hasTarget_iff.2 ⟨⟨hspan, hparent⟩, hlayer⟩
  have hown := cell_store_self (g := g) hsized he
  rw [commit_eq]
  refine ⟨?_, ?_, ?_, ?_, isNew_eq c e, ?_, ?_⟩
  · have hstored : (c.store g e).layerAt e.target = ⟨e.inside, e.fom, some e⟩ := by
      rw [layerAt_store hsized he he, if_pos rfl]
    exact ⟨congrArg Layer.inside hstored, congrArg Layer.fom hstored, congrArg Layer.edge hstored⟩
  · intro start stop nt depth hspan' hnt hdepth hne
    have hτ : c.HasTarget ⟨⟨start, stop, nt⟩, depth⟩ :=
      hc.hasTarget_iff.2 ⟨⟨hspan', hnt⟩, hdepth⟩
    have hsame := layerAt_store_of_ne (g := g) hsized he hτ hne
    exact ⟨congrArg Layer.inside hsame, congrArg Layer.fom hsame, congrArg Layer.edge hsame⟩
  · intro start stop nt hspan' hnt hne
    have hx : c.HasSlot ⟨start, stop, nt⟩ := hc.hasSlot_iff.2 ⟨hspan', hnt⟩
    have hbest := bestOfSlot_store_of_ne (g := g) hsized he hx hne
    have htop := hshaped.layerAt_topOf_store (g := g) he hx hne
    exact ⟨congrArg Best.inside hbest, congrArg Layer.fom htop, congrArg Layer.edge htop,
      congrArg Best.layer hbest⟩
  · intro start stop hspan' hne
    rw [← hc.size_eq] at hspan'
    simp only [populated, leftChildren, rightChildren, cell_store_of_ne hsized he hspan' hne,
      and_self]
  · intro hpopulated
    simp only [populated, leftChildren, rightChildren, hown, hpopulated, if_true, and_self]
  · intro hnot
    simp only [populated, leftChildren, rightChildren, hown, hnot, Bool.false_eq_true, if_false]
    exact Cell.add_lists g e.parent _

/-- A unary edge that scores no number is committed over the first word, where its child stands.
The child is as it was, and the parent is listed after it. -/
theorem commit_frame_unscored :
    let c := (empty circularGrammar 2 1).store circularGrammar (.lexical circularGrammar 3 0)
    let e := Edge.unary circularGrammar 1 0 1 1 .nan
    (c.commit circularGrammar e).2.layerInside 0 1 0 1 = .nan ∧
      (c.commit circularGrammar e).2.inside 0 1 1 = .ofWholeUnits (-2) ∧
      (c.commit circularGrammar e).2.populated 0 1 = [1, 0] ∧
      (c.commit circularGrammar e).2.populated 1 2 = [] := by
  intro c e
  have hc : Committed circularGrammar 2 1 (fun _ _ => True) c :=
    Committed.start.commit ⟨⟨by decide, by decide +kernel⟩, by decide⟩ trivial
  have hparent : (circularGrammar.production 1).parent = 0 := by decide +kernel
  obtain ⟨⟨hscore, -, -⟩, -, hslots, hcells, -, -, hnew⟩ :=
    commit_frame (e := e) hc (by decide) (by decide +kernel) (by decide)
  obtain ⟨hlisted, -⟩ := hnew (by decide +kernel)
  obtain ⟨hchild, -⟩ := hslots 0 1 1 (by decide) (by decide +kernel) (by decide +kernel)
  obtain ⟨hother, -⟩ := hcells 1 2 (by decide) (by decide)
  change (c.commit circularGrammar e).2.layerInside 0 1 (circularGrammar.production 1).parent 1 =
    .nan at hscore
  rw [hparent] at hscore
  refine ⟨hscore, hchild.trans ?_, hlisted.trans ?_, hother.trans ?_⟩
  · decide +kernel
  · decide +kernel
  · decide +kernel

/-! ## Several commits -/

/-- The edges have targets in the chart, all of them among some. -/
def Aims (c : Chart) (within : Target → Prop) (es : List Edge) : Prop :=
  ∀ e ∈ es, c.HasTarget e.target ∧ within e.target

namespace Aims

variable {within : Target → Prop} {es : List Edge}

theorem mono {within' : Target → Prop} (h : c.Aims within es)
    (hsub : ∀ τ, within τ → within' τ) : c.Aims within' es :=
  fun e he => ⟨(h e he).1, hsub _ (h e he).2⟩

theorem subset {es' : List Edge} (h : c.Aims within es) (hsub : ∀ e ∈ es', e ∈ es) :
    c.Aims within es' :=
  fun e he => h e (hsub e he)

/-- Commits leave the addresses of a chart alone. -/
theorem of_replay {log : List Edge} (h : (c.replay g log).Aims within es) : c.Aims within es := by
  induction log generalizing c with
  | nil => exact h
  | cons e log ih => exact ih (c := c.store g e) h

theorem append {es' : List Edge} (h : c.Aims within es) (h' : c.Aims within es') :
    c.Aims within (es ++ es') :=
  List.forall_mem_append.2 ⟨h, h'⟩

/-- Layers that no commit aims at are as before. -/
theorem layerAt_replay (h : c.Aims within es) (hc : c.WellSized) {τ : Target} (hτ : c.HasTarget τ)
    (hnot : ¬ within τ) : (c.replay g es).layerAt τ = c.layerAt τ := by
  induction es generalizing c with
  | nil => rfl
  | cons e es ih =>
      obtain ⟨⟨he, hwithin⟩, hrest⟩ := List.forall_mem_cons.1 h
      have hne : τ ≠ e.target := fun heq => hnot (heq ▸ hwithin)
      exact (ih (c := c.store g e) hrest (hc.store g e) hτ).trans
        (layerAt_store_of_ne hc he hτ hne)

/-- Slots in which no commit aims at a layer are as before. -/
theorem bestOfSlot_replay (h : c.Aims within es) (hc : c.WellSized) {x : Slot} (hx : c.HasSlot x)
    (hnot : ∀ d, ¬ within ⟨x, d⟩) : (c.replay g es).bestOfSlot x = c.bestOfSlot x := by
  induction es generalizing c with
  | nil => rfl
  | cons e es ih =>
      obtain ⟨⟨he, hwithin⟩, hrest⟩ := List.forall_mem_cons.1 h
      have hne : x ≠ e.slot := fun heq => hnot e.layer (heq ▸ hwithin)
      exact (ih (c := c.store g e) hrest (hc.store g e) hx).trans
        (bestOfSlot_store_of_ne hc he hx hne)

/-- Cells in which no commit aims at a slot list what they listed before. -/
theorem cell_replay (h : c.Aims within es) (hc : c.WellSized) {start stop : Nat}
    (hspan : IsSpan c.size start stop) (hnot : ∀ nt d, ¬ within ⟨⟨start, stop, nt⟩, d⟩) :
    (c.replay g es).cell start stop = c.cell start stop := by
  induction es generalizing c with
  | nil => rfl
  | cons e es ih =>
      obtain ⟨⟨he, hwithin⟩, hrest⟩ := List.forall_mem_cons.1 h
      have hne : (start, stop) ≠ (e.start, e.stop) := by
        intro heq
        obtain ⟨rfl, rfl⟩ := Prod.mk.inj heq
        exact hnot e.parent e.layer hwithin
      exact (ih (c := c.store g e) hrest (hc.store g e) hspan).trans
        (cell_store_of_ne hc he hspan hne)

/-- The score of a layer is what it was, or that of a commit that aimed at it. -/
theorem scoreAt_replay (h : c.Aims within es) (hc : c.WellSized) {τ : Target}
    (hτ : c.HasTarget τ) :
    (c.replay g es).scoreAt τ = c.scoreAt τ ∨
      ∃ e ∈ es, e.target = τ ∧ (c.replay g es).scoreAt τ = e.inside := by
  induction es generalizing c with
  | nil => exact Or.inl rfl
  | cons e es ih =>
      obtain ⟨⟨he, -⟩, hrest⟩ := List.forall_mem_cons.1 h
      rcases ih (c := c.store g e) hrest (hc.store g e) hτ with hsame | ⟨f, hf, htarget, hscore⟩
      · have hfirst := scoreAt_store (g := g) hc he hτ
        split at hfirst
        · next heq => exact Or.inr ⟨e, List.mem_cons_self, heq.symm, hsame.trans hfirst⟩
        · exact Or.inl (hsame.trans hfirst)
      · exact Or.inr ⟨f, List.mem_cons_of_mem e hf, htarget, hscore⟩

end Aims

end Chart
end BestParse
