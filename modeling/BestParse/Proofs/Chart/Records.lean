import BestParse.Proofs.Chart.Course

/-!
# Charts as records of commits

`Committed` is the least set of charts that holds the empty chart and is closed under commits
that pass a *gate*.  Two facts need no gate at all: the arrays keep their shape
(`Committed.shaped`), and every layer is blank or records the edge that was committed to it
last (`Committed.records`).  If only improving edges pass, the chart is coherent besides
(`Committed.coherent`).

The chart of every course is such a record (`Course.committed`), so what is proved here holds
of every search.
-/

namespace BestParse
namespace Chart

/-- The charts that commits lead to, if each of them has to pass a gate. -/
inductive Committed (g : Grammar) (size chain : Nat) (gate : Chart → Edge → Prop) :
    Chart → Prop where
  /-- Nothing is committed yet. -/
  | start : Committed g size chain gate (empty g size chain)
  /-- An edge over a span of the sentence passes the gate. -/
  | commit {c : Chart} {e : Edge} (before : Committed g size chain gate c)
      (target : c.HasTarget e.target) (passes : gate c e) :
      Committed g size chain gate (c.store g e)

/-- Every layer is blank or records an edge of its own. -/
def Records (c : Chart) : Prop :=
  ∀ τ, c.HasTarget τ →
    c.layerAt τ = {} ∨ ∃ e : Edge, e.target = τ ∧ c.layerAt τ = ⟨e.inside, e.fom, some e⟩

variable {g : Grammar} {size chain : Nat} {gate : Chart → Edge → Prop} {c : Chart} {e : Edge}

theorem records_empty (g : Grammar) (size chain : Nat) : (empty g size chain).Records :=
  fun τ _ => Or.inl (layerAt_empty g size chain τ)

theorem Records.store (h : c.Records) (hc : c.WellSized) (he : c.HasTarget e.target) :
    (c.store g e).Records := by
  intro τ hτ
  rw [layerAt_store hc he hτ]
  split
  · next heq => exact Or.inr ⟨e, heq.symm, rfl⟩
  · exact h τ hτ

/-- A stored edge is of its layer, with the layer's score and figure of merit. -/
theorem Records.of_edge (h : c.Records) {τ : Target} (hτ : c.HasTarget τ)
    (hedge : (c.layerAt τ).edge = some e) :
    e.target = τ ∧ e.inside = (c.layerAt τ).inside ∧ e.fom = (c.layerAt τ).fom := by
  rcases h τ hτ with hblank | ⟨f, htarget, hlayer⟩
  · rw [hblank] at hedge
    cases hedge
  · rw [hlayer] at hedge ⊢
    cases hedge
    exact ⟨htarget, rfl, rfl⟩

namespace Committed

theorem shaped (h : Committed g size chain gate c) : c.Shaped := by
  induction h with
  | start => exact (coherent_empty g size chain).shaped
  | commit before target passes ih => exact ih.store target

theorem records (h : Committed g size chain gate c) : c.Records := by
  induction h with
  | start => exact records_empty g size chain
  | commit before target passes ih => exact ih.store before.shaped.sized target

theorem mono {gate' : Chart → Edge → Prop} (hgate : ∀ c e, gate c e → gate' c e)
    (h : Committed g size chain gate c) : Committed g size chain gate' c := by
  induction h with
  | start => exact .start
  | commit before target passes ih => exact ih.commit target (hgate _ _ passes)

theorem size_eq (h : Committed g size chain gate c) : c.size = size := by
  induction h with
  | start => rfl
  | commit before target passes ih => exact ih

theorem symbols_eq (h : Committed g size chain gate c) : c.symbols = g.numNonterminals := by
  induction h with
  | start => rfl
  | commit before target passes ih => exact ih

theorem maxChain_eq (h : Committed g size chain gate c) : c.maxChain = chain := by
  induction h with
  | start => rfl
  | commit before target passes ih => exact ih

theorem hasSlot_iff (h : Committed g size chain gate c) {x : Slot} :
    c.HasSlot x ↔ IsSpan size x.start x.stop ∧ x.symbol < g.numNonterminals := by
  rw [HasSlot, h.size_eq, h.symbols_eq]

theorem hasTarget_iff (h : Committed g size chain gate c) {τ : Target} :
    c.HasTarget τ ↔ (IsSpan size τ.slot.start τ.slot.stop ∧ τ.slot.symbol < g.numNonterminals) ∧
      τ.layer ≤ chain := by
  rw [HasTarget, h.hasSlot_iff, h.maxChain_eq]

/-! ## What is not populated is blank -/

theorem layerAt_eq (h : Committed g size chain gate c) {τ : Target} (hτ : c.HasTarget τ)
    (hnot : ¬ c.Holds τ) : c.layerAt τ = {} := by
  rcases h.records τ hτ with hblank | ⟨e, -, hlayer⟩
  · exact hblank
  · exact absurd (by rw [Holds, hlayer]; rfl) hnot

theorem bestOfSlot_eq (h : Committed g size chain gate c) {x : Slot} (hx : c.HasSlot x)
    (hnot : ¬ c.Holds (c.topOf x)) : c.bestOfSlot x = {} := by
  induction h with
  | start => exact bestOfSlot_empty g size chain x
  | @commit c e before target passes ih =>
      have hpopulated := isPopulated_store (g := g) before.shaped target hx
      rw [bestOfSlot_store before.shaped.sized target hx]
      split
      · next hraised => exact absurd (hpopulated.2 (Or.inl hraised.1)) hnot
      · exact ih hx fun hold => hnot (hpopulated.2 (Or.inr hold))

/-! ## Commits of numbers -/

section

variable (h : Committed g size chain (fun _ e => e.inside ≠ .nan) c)

include h

theorem scoreAt_ne_nan {τ : Target} (hτ : c.HasTarget τ) : c.scoreAt τ ≠ .nan := by
  induction h with
  | start =>
      rw [scoreAt, layerAt_empty]
      intro hnan
      cases hnan
  | commit before target passes ih =>
      rw [scoreAt_store before.shaped.sized target hτ]
      split
      · exact passes
      · exact ih hτ

theorem bestAt_ne_nan {x : Slot} (hx : c.HasSlot x) : c.bestAt x ≠ .nan := by
  induction h with
  | start =>
      rw [bestAt, bestOfSlot_empty]
      intro hnan
      cases hnan
  | commit before target passes ih =>
      rw [bestAt_store before.shaped.sized target hx]
      split
      · exact passes
      · exact ih hx

/-- What is raised was below. -/
theorem bestAt_le_of_raises (he : c.HasTarget e.target) (hraises : c.raises e = true) :
    (c.bestAt e.slot).rank ≤ e.inside.rank := by
  rcases Bool.or_eq_true_iff.1 hraises with hnew | himproves
  · have hnot : ¬ c.Holds (c.topOf e.slot) := by
      rw [isNew_eq, Bool.not_eq_true'] at hnew
      exact Bool.eq_false_iff.1 hnew
    rw [bestAt, h.bestOfSlot_eq (x := e.slot) he.1 hnot]
    exact Score.negInf_rank_le _
  · exact Int.le_of_lt (Score.improves_iff.1 himproves).2.2

/-- No commit lowers a slot. -/
theorem bestAt_le_store (he : c.HasTarget e.target) {x : Slot} (hx : c.HasSlot x) :
    (c.bestAt x).rank ≤ ((c.store g e).bestAt x).rank := by
  rw [bestAt_store h.shaped.sized he hx]
  split
  · next hraised =>
    rw [hraised.1]
    exact h.bestAt_le_of_raises he hraised.2
  · exact Int.le_refl _

/-- No layer scores more than its slot. -/
theorem scoreAt_le_bestAt {τ : Target} (hτ : c.HasTarget τ) :
    (c.scoreAt τ).rank ≤ (c.bestAt τ.slot).rank := by
  induction h with
  | start =>
      rw [scoreAt, layerAt_empty]
      exact Score.negInf_rank_le _
  | @commit c e before target passes ih =>
      rw [scoreAt_store before.shaped.sized target hτ]
      split
      · next heq =>
        subst heq
        rw [bestAt_store before.shaped.sized target hτ.1]
        by_cases hraises : c.raises e = true
        · exact Int.le_of_eq (by rw [if_pos ⟨rfl, hraises⟩])
        · rw [if_neg fun hr => hraises hr.2]
          have hnot : ¬ e.inside.improves (c.bestAt e.slot) = true :=
            fun himproves => hraises (Bool.or_eq_true_iff.2 (Or.inr himproves))
          exact Score.rank_le_of_not_improves passes (before.bestAt_ne_nan hτ.1) hnot
      · exact Int.le_trans (ih hτ) (before.bestAt_le_store target hτ.1)

end

/-! ## Commits of improvements -/

theorem coherent (h : Committed g size chain (fun c e => c.accepts e = true) c) :
    c.Coherent g := by
  induction h with
  | start => exact coherent_empty g size chain
  | commit before target passes ih => exact ih.store target passes

/-- Seeding commits what improves its layer. -/
theorem seed (h : Committed g size chain (fun c e => c.accepts e = true) c) (hg : g.WellFormed)
    (word : Option WordId) {i : Nat} (hi : i < size) :
    Committed g size chain (fun c e => c.accepts e = true) (c.seed g word i).2 := by
  rw [seed_eq]
  refine seedAll_induction h fun c' id hid hbefore haccepts => ?_
  have hparent := hg.parent_lt id (hg.mem_lexicalWith.1 hid).1
  exact hbefore.commit
    (hbefore.hasTarget_iff.2 ⟨⟨⟨Nat.lt_succ_self i, hi⟩, hparent⟩, Nat.zero_le _⟩) haccepts

end Committed

/-- A course leads to a record of commits, each of the score of a derivation. -/
theorem Course.committed {t : Task} {es : List Edge} (h : Course t chain gate c es)
    (hg : t.grammar.WellFormed) :
    Committed t.grammar t.sentence.size chain
      (fun c e => gate c e ∧ e.Supported t chain) c := by
  induction h with
  | start => exact .start
  | make before licensed score_eq ih => exact ih
  | commit before mem passes ih =>
      have hsupported := before.supported hg mem
      have htarget := (before.attains hg).1.isFor.hasTarget_of_supported hg hsupported
      exact ih.commit htarget ⟨passes, hsupported⟩
  | keep before sub ih => exact ih

theorem Course.numbered {t : Task} {es : List Edge} (h : Course t chain gate c es)
    (hg : t.grammar.WellFormed) :
    Committed t.grammar t.sentence.size chain (fun _ e => e.inside ≠ .nan) c :=
  (h.committed hg).mono fun _ _ hpasses => inside_ne_nan_of_supported hg hpasses.2

end Chart
end BestParse
