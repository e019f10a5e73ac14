import BestParse.Proofs.Chart.Extension
import BestParse.Proofs.Chart.Licensed

/-!
# Courses of a search

Every search does two things: it makes edges from the chart as it stands, and it commits
edges that it has made before.  Between the two the chart may have changed, so an edge may
be committed whose children have other scores by then, or other best layers.

A *course* is any sequence of these steps.  What the searches add is the order, and the
*gate* that an edge has to pass before it is committed.  Some invariants are proved of
courses once and hold of every search:

* `Course.forall_edges`: what holds of edges when they are made holds of stored edges.
* `Course.linked`: every stored edge is licensed and leads to layers that have an edge,
  whatever the gate.
* `Course.attains`: every score is that of a derivation, whatever the gate.
* `Improving.sound_and_modest`: if only improving edges pass, the chart is sound and no
  stored edge claims more than its children give.
-/

namespace BestParse
namespace Chart

open Edge

variable {t : Task} {chain : Nat} {c : Chart} {e : Edge}

/-! ## Charts whose edges lead on -/

/-- The target has an edge. -/
def Holds (c : Chart) (τ : Target) : Prop := (c.layerAt τ).edge.isSome = true

/-- What is reachable has an edge, and every stored edge is licensed and leads on. -/
structure Linked (t : Task) (chain : Nat) (c : Chart) : Prop where
  isFor : c.IsFor t chain
  shaped : c.Shaped
  layer_holds : ∀ τ, c.HasTarget τ → (c.scoreAt τ).isReachable = true → c.Holds τ
  slot_holds : ∀ x, c.HasSlot x → (c.bestAt x).isReachable = true → c.Holds (c.topOf x)
  target_eq : ∀ τ e, c.HasTarget τ → (c.layerAt τ).edge = some e → e.target = τ
  inside_eq : ∀ τ e, c.HasTarget τ → (c.layerAt τ).edge = some e → e.inside = c.scoreAt τ
  licensed : ∀ τ e, c.HasTarget τ → (c.layerAt τ).edge = some e → e.Licensed t chain
  leads : ∀ τ e, c.HasTarget τ → (c.layerAt τ).edge = some e →
    ∀ σ ∈ e.below t.grammar c, c.Holds σ

theorem linked_empty (t : Task) (chain : Nat) :
    (empty t.grammar t.sentence.size chain).Linked t chain := by
  have hnone : ∀ τ, ((empty t.grammar t.sentence.size chain).layerAt τ).edge = none := by
    intro τ
    rw [layerAt_empty]
  have hsound := sound_empty t chain
  refine ⟨isFor_empty t chain, hsound.coherent.shaped, ?_, ?_, ?_, ?_, ?_, ?_⟩
  · intro τ hτ hreach
    exact (hsound.coherent.edge_iff τ hτ).2 hreach
  · intro x hx hreach
    exact (hsound.coherent.isPopulated_iff hx).2 hreach
  · intro τ e _ he
    cases (hnone τ).symm.trans he
  · intro τ e _ he
    cases (hnone τ).symm.trans he
  · intro τ e _ he
    cases (hnone τ).symm.trans he
  · intro τ e _ he
    cases (hnone τ).symm.trans he

section

variable {g : Grammar} (hc : c.Shaped) (he : c.HasTarget e.target)

include hc he

theorem edge_store {τ : Target} (hτ : c.HasTarget τ) :
    ((c.store g e).layerAt τ).edge =
      if τ = e.target then some e else (c.layerAt τ).edge := by
  rw [layerAt_store hc.sized he hτ]
  split <;> rfl

/-- No layer loses its edge. -/
theorem holds_store {τ : Target} (hτ : c.HasTarget τ) (h : c.Holds τ) :
    (c.store g e).Holds τ := by
  unfold Holds at h ⊢
  rw [edge_store hc he hτ]
  split
  · rfl
  · exact h

/-- The best layer of a slot has an edge, also when it has become another. -/
theorem holds_topOf_store {x : Slot} (hx : c.HasSlot x)
    (h : x = e.slot ∨ c.Holds (c.topOf x)) :
    (c.store g e).Holds ((c.store g e).topOf x) :=
  (isPopulated_store hc he hx).2 h

/-- Where an edge leads has an edge after the commit too. -/
theorem holds_below_store (hg : t.grammar.WellFormed) (hfor : c.IsFor t chain) {p : Edge}
    (hp : p.Licensed t chain) (h : ∀ σ ∈ p.below t.grammar c, c.Holds σ) :
    ∀ σ ∈ p.below t.grammar (c.store t.grammar e), (c.store t.grammar e).Holds σ := by
  unfold Edge.below at h ⊢
  cases hexp : (t.grammar.production p.production).expansion with
  | lexical w => exact nofun
  | unary child =>
      rw [hexp] at h
      simp only [List.mem_singleton, forall_eq] at h ⊢
      exact holds_store hc he (hp.hasTarget_child hg hfor hexp) h
  | binary l r =>
      obtain ⟨hl, hr⟩ := hp.hasSlots hg hfor hexp
      rw [hexp] at h
      simp only [List.mem_cons, List.not_mem_nil, or_false, forall_eq_or_imp, forall_eq] at h ⊢
      exact ⟨holds_topOf_store hc he hl (Or.inr h.1), holds_topOf_store hc he hr (Or.inr h.2)⟩

end

theorem Linked.store (h : c.Linked t chain) (hg : t.grammar.WellFormed)
    (he : e.Licensed t chain) (hbelow : ∀ σ ∈ e.below t.grammar c, c.Holds σ) :
    (c.store t.grammar e).Linked t chain := by
  have htarget : c.HasTarget e.target := he.hasTarget hg h.isFor
  -- A stored edge is the one just committed, or was stored before.
  have hcases : ∀ τ p, c.HasTarget τ → ((c.store t.grammar e).layerAt τ).edge = some p →
      τ = e.target ∧ p = e ∨ τ ≠ e.target ∧ (c.layerAt τ).edge = some p := by
    intro τ p hτ hp
    rw [edge_store h.shaped htarget hτ] at hp
    split at hp
    · next heq => exact Or.inl ⟨heq, (Option.some.inj hp).symm⟩
    · next hne => exact Or.inr ⟨hne, hp⟩
  refine ⟨h.isFor.store e, h.shaped.store htarget, ?_, ?_, ?_, ?_, ?_, ?_⟩
  · intro τ hτ hreach
    unfold Holds
    rw [edge_store h.shaped htarget hτ]
    rw [scoreAt_store h.shaped.sized htarget hτ] at hreach
    split at hreach
    · next heq => rw [if_pos heq]; rfl
    · next hne =>
      rw [if_neg hne]
      exact h.layer_holds τ hτ hreach
  · intro x hx hreach
    rw [bestAt_store h.shaped.sized htarget hx] at hreach
    split at hreach
    · next hraised => exact holds_topOf_store h.shaped htarget hx (Or.inl hraised.1)
    · exact holds_topOf_store h.shaped htarget hx (Or.inr (h.slot_holds x hx hreach))
  · intro τ p hτ hp
    rcases hcases τ p hτ hp with ⟨rfl, rfl⟩ | ⟨-, hold⟩
    · rfl
    · exact h.target_eq τ p hτ hold
  · intro τ p hτ hp
    rw [scoreAt_store h.shaped.sized htarget hτ]
    rcases hcases τ p hτ hp with ⟨rfl, rfl⟩ | ⟨hne, hold⟩
    · rw [if_pos rfl]
    · rw [if_neg hne]
      exact h.inside_eq τ p hτ hold
  · intro τ p hτ hp
    rcases hcases τ p hτ hp with ⟨-, rfl⟩ | ⟨-, hold⟩
    · exact he
    · exact h.licensed τ p hτ hold
  · intro τ p hτ hp
    rcases hcases τ p hτ hp with ⟨-, rfl⟩ | ⟨-, hold⟩
    · exact holds_below_store h.shaped htarget hg h.isFor he hbelow
    · exact holds_below_store h.shaped htarget hg h.isFor (h.licensed τ p hτ hold)
        (h.leads τ p hτ hold)

/-- Where the production of an edge has a score, the edge leads on. -/
theorem Linked.holds_below (h : c.Linked t chain) (hg : t.grammar.WellFormed)
    (he : e.Licensed t chain) {x : Score} (hx : e.scoreOver? t.grammar c = some x) :
    ∀ σ ∈ e.below t.grammar c, c.Holds σ := by
  unfold Edge.scoreOver? at hx
  unfold Edge.below
  cases hexp : (t.grammar.production e.production).expansion with
  | lexical w => exact nofun
  | unary child =>
      rw [hexp] at hx
      obtain ⟨hreach, -⟩ := Score.extend_eq_some_iff.1 hx
      simp only [List.mem_singleton, forall_eq]
      exact h.layer_holds _ (he.hasTarget_child hg h.isFor hexp) hreach
  | binary l r =>
      rw [hexp] at hx
      obtain ⟨hreachl, hreachr, -⟩ := Score.combine_eq_some_iff.1 hx
      obtain ⟨hl, hr⟩ := he.hasSlots hg h.isFor hexp
      simp only [List.mem_cons, List.not_mem_nil, or_false, forall_eq_or_imp, forall_eq]
      exact ⟨h.slot_holds _ hl hreachl, h.slot_holds _ hr hreachr⟩

/-! ## Courses -/

/-- The charts that a search can come to, with the edges it has in hand. -/
inductive Course (t : Task) (chain : Nat) (gate : Chart → Edge → Prop) :
    Chart → List Edge → Prop where
  /-- Nothing is done yet. -/
  | start : Course t chain gate (empty t.grammar t.sentence.size chain) []
  /-- An edge is made from the current scores of its children. -/
  | make {c : Chart} {es : List Edge} {e : Edge} (before : Course t chain gate c es)
      (licensed : e.Licensed t chain) (score_eq : e.scoreOver? t.grammar c = some e.inside) :
      Course t chain gate c (e :: es)
  /-- An edge in hand is committed. -/
  | commit {c : Chart} {es : List Edge} {e : Edge} (before : Course t chain gate c es)
      (mem : e ∈ es) (passes : gate c e) : Course t chain gate (c.store t.grammar e) es
  /-- Some edges are dropped, or put in another order. -/
  | keep {c : Chart} {es es' : List Edge} (before : Course t chain gate c es)
      (sub : ∀ e ∈ es', e ∈ es) : Course t chain gate c es'

/-- A course on which only improving edges are committed. -/
abbrev Improving (t : Task) (chain : Nat) : Chart → List Edge → Prop :=
  Course t chain fun c e => c.accepts e = true

namespace Course

variable {gate : Chart → Edge → Prop} {es : List Edge}

theorem mono {gate' : Chart → Edge → Prop} (hgate : ∀ c e, gate c e → gate' c e)
    (h : Course t chain gate c es) : Course t chain gate' c es := by
  induction h with
  | start => exact .start
  | make before licensed score_eq ih => exact ih.make licensed score_eq
  | commit before mem passes ih => exact ih.commit mem (hgate _ _ passes)
  | keep before sub ih => exact ih.keep sub

/-- Several edges are made over one chart. -/
theorem makeAll (h : Course t chain gate c es) (new : List Edge)
    (hnew : ∀ e ∈ new, e.Licensed t chain ∧ e.scoreOver? t.grammar c = some e.inside) :
    Course t chain gate c (new ++ es) := by
  induction new with
  | nil => exact h
  | cons e new ih =>
      obtain ⟨hlicensed, hscore⟩ := hnew e List.mem_cons_self
      exact (ih fun f hf => hnew f (List.mem_cons_of_mem e hf)).make hlicensed hscore

/-- An edge is made and committed at once. -/
theorem makeCommit (h : Course t chain gate c es) (licensed : e.Licensed t chain)
    (score_eq : e.scoreOver? t.grammar c = some e.inside) (passes : gate c e) :
    Course t chain gate (c.store t.grammar e) es :=
  ((h.make licensed score_eq).commit List.mem_cons_self passes).keep fun _ hf =>
    List.mem_cons_of_mem e hf

/-- Words are seeded. -/
theorem seed (h : Course t chain gate c es) (hg : t.grammar.WellFormed)
    (hgate : ∀ c e, c.accepts e = true → gate c e) {i : Nat} (hi : i < t.sentence.size) :
    Course t chain gate (c.seed t.grammar (t.sentence.token? i) i).2 es := by
  rw [seed_eq]
  refine seedAll_induction (I := fun c => Course t chain gate c es) h ?_
  intro c' id hid hbefore haccepts
  obtain ⟨hlt, hword⟩ := hg.mem_lexicalWith.1 hid
  obtain ⟨hlicensed, hscore⟩ := licensed_lexical hi hlt hword
  exact hbefore.makeCommit hlicensed hscore (hgate _ _ haccepts)

/-! ## Every course is linked -/

/-- Every stored edge is licensed and leads on, and so is and does every edge in hand. -/
theorem linked (h : Course t chain gate c es) (hg : t.grammar.WellFormed) :
    c.Linked t chain ∧
      ∀ e ∈ es, e.Licensed t chain ∧ ∀ σ ∈ e.below t.grammar c, c.Holds σ := by
  induction h with
  | start => exact ⟨linked_empty t chain, List.forall_mem_nil _⟩
  | @make c es e before licensed score_eq ih =>
      obtain ⟨hlinked, hhand⟩ := ih
      refine ⟨hlinked, fun f hf => ?_⟩
      rcases List.mem_cons.1 hf with rfl | hold
      · exact ⟨licensed, hlinked.holds_below hg licensed score_eq⟩
      · exact hhand f hold
  | @commit c es e before mem passes ih =>
      obtain ⟨hlinked, hhand⟩ := ih
      obtain ⟨hlicensed, hbelow⟩ := hhand e mem
      refine ⟨hlinked.store hg hlicensed hbelow, fun f hf => ?_⟩
      obtain ⟨hlicensed', hbelow'⟩ := hhand f hf
      exact ⟨hlicensed', holds_below_store hlinked.shaped (hlicensed.hasTarget hg hlinked.isFor) hg
        hlinked.isFor hlicensed' hbelow'⟩
  | keep before sub ih => exact ⟨ih.1, fun e he => ih.2 e (sub e he)⟩

theorem licensed (h : Course t chain gate c es) (hg : t.grammar.WellFormed) (he : e ∈ es) :
    e.Licensed t chain :=
  ((h.linked hg).2 e he).1

/-- What holds of edges when they are made holds of those in hand and of those stored. -/
theorem forall_edges {P : Edge → Prop} (h : Course t chain gate c es) (hg : t.grammar.WellFormed)
    (hmade : ∀ c e, e.Licensed t chain → e.scoreOver? t.grammar c = some e.inside → P e) :
    (∀ e ∈ es, P e) ∧ ∀ τ e, c.HasTarget τ → (c.layerAt τ).edge = some e → P e := by
  induction h with
  | start =>
      refine ⟨List.forall_mem_nil _, fun τ e _ he => ?_⟩
      rw [layerAt_empty] at he
      cases he
  | make before licensed score_eq ih =>
      exact ⟨List.forall_mem_cons.2 ⟨hmade _ _ licensed score_eq, ih.1⟩, ih.2⟩
  | @commit c es e before mem passes ih =>
      obtain ⟨hlinked, hhand⟩ := before.linked hg
      have htarget := (hhand e mem).1.hasTarget hg hlinked.isFor
      refine ⟨ih.1, fun τ p hτ hp => ?_⟩
      rw [edge_store hlinked.shaped htarget hτ] at hp
      split at hp
      · rw [← Option.some.inj hp]
        exact ih.1 e mem
      · exact ih.2 τ p hτ hp
  | keep before sub ih => exact ⟨fun e he => ih.1 e (sub e he), ih.2⟩

/-! ## Every course attains its scores -/

/-- The scores of the chart are those of derivations, and so are those of the edges in hand. -/
theorem attains (h : Course t chain gate c es) (hg : t.grammar.WellFormed) :
    c.Attains t chain ∧ ∀ e ∈ es, e.Supported t chain := by
  induction h with
  | start => exact ⟨(sound_empty t chain).attains, List.forall_mem_nil _⟩
  | @make c es e before licensed score_eq ih =>
      obtain ⟨hattains, hhand⟩ := ih
      refine ⟨hattains, fun f hf => ?_⟩
      rcases List.mem_cons.1 hf with rfl | hold
      · exact hattains.exists_derivation hg licensed score_eq
      · exact hhand f hold
  | @commit c es e before mem passes ih =>
      obtain ⟨hattains, hhand⟩ := ih
      have hsized := (before.linked hg).1.shaped.sized
      exact ⟨hattains.store hsized hg (hhand e mem), hhand⟩
  | keep before sub ih => exact ⟨ih.1, fun e he => ih.2 e (sub e he)⟩

theorem supported (h : Course t chain gate c es) (hg : t.grammar.WellFormed) (he : e ∈ es) :
    e.Supported t chain :=
  (h.attains hg).2 e he

end Course

/-! ## Courses of improving commits -/

namespace Improving

variable {es : List Edge} (h : Improving t chain c es) (hg : t.grammar.WellFormed)

include h hg

/-- If only improving edges are committed the chart is sound, and neither a stored edge nor
an edge in hand claims more than its children give. -/
theorem sound_and_modest :
    c.Sound t chain ∧ (∀ e ∈ es, c.Modest t.grammar e) ∧
      ∀ τ e, c.HasTarget τ → (c.layerAt τ).edge = some e → c.Modest t.grammar e := by
  induction h with
  | start =>
      refine ⟨sound_empty t chain, List.forall_mem_nil _, fun τ e _ he => ?_⟩
      rw [layerAt_empty] at he
      cases he
  | @make c es e before licensed score_eq ih =>
      obtain ⟨hsound, hhand, hstored⟩ := ih
      refine ⟨hsound, fun f hf => ?_, hstored⟩
      rcases List.mem_cons.1 hf with rfl | hold
      · exact ⟨_, score_eq, Int.le_refl _⟩
      · exact hhand f hold
  | @commit c es e before mem accepts ih =>
      obtain ⟨hsound, hhand, hstored⟩ := ih
      obtain ⟨hlinked, hlicensed⟩ := before.linked hg
      have hsupported := before.supported hg mem
      have htarget := hsound.isFor.hasTarget_of_supported hg hsupported
      have hsound' := hsound.store hg hsupported accepts
      have hgrows := hsound.coherent.grows_store htarget accepts
      refine ⟨hsound', fun f hf => ?_, fun τ p hτ hp => ?_⟩
      · exact hsound'.modest_of_grows hg hgrows (hlicensed f hf).1 (hhand f hf)
      · rw [edge_store hlinked.shaped htarget hτ] at hp
        split at hp
        · rw [← Option.some.inj hp]
          exact hsound'.modest_of_grows hg hgrows (hlicensed e mem).1 (hhand e mem)
        · exact hsound'.modest_of_grows hg hgrows (hlinked.licensed τ p hτ hp) (hstored τ p hτ hp)
  | keep before sub ih => exact ⟨ih.1, fun e he => ih.2.1 e (sub e he), ih.2.2⟩

theorem sound : c.Sound t chain := (h.sound_and_modest hg).1

/-- No stored edge claims more than its children give. -/
theorem modest {τ : Target} (hτ : c.HasTarget τ) (he : (c.layerAt τ).edge = some e) :
    c.Modest t.grammar e :=
  (h.sound_and_modest hg).2.2 τ e hτ he

end Improving
end Chart
end BestParse
