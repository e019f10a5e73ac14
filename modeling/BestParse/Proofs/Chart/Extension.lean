import Mathlib.Data.List.Induction
import Mathlib.Data.List.Nodup
import BestParse.Proofs.Chart.Exact

/-!
# Extending a chart

A search extends its chart by commits of supported edges, each an improvement of its
layer.  `Extends` says this of a stretch of the search and of the targets it wrote
to: the chart stays sound, nothing is lowered, and all other targets keep their
scores.

Words are seeded by such commits.  Seeding a blank cell dominates the leaves over
the word (`seed_dominates`) and answers with the slots it populated (`seed_fst`).
-/

namespace BestParse
namespace Chart

/-- The second chart arises from the first by commits of supported edges to some of
the targets. -/
structure Extends (t : Task) (chain : Nat) (within : Target → Prop) (c c' : Chart) : Prop where
  sound : c'.Sound t chain
  grows : c.Grows c'
  frame : ∀ τ, c.HasTarget τ → ¬ within τ → c'.scoreAt τ = c.scoreAt τ

variable {t : Task} {chain : Nat} {P Q : Target → Prop} {c c' c'' : Chart}

namespace Extends

theorem refl (h : c.Sound t chain) : Extends t chain Q c c :=
  ⟨h, Grows.refl c, fun _ _ _ => rfl⟩

theorem trans (h : Extends t chain Q c c') (h' : Extends t chain Q c' c'') :
    Extends t chain Q c c'' where
  sound := h'.sound
  grows := h.grows.trans h'.grows
  frame τ hτ hQ := (h'.frame τ (h.grows.hasTarget.2 hτ) hQ).trans (h.frame τ hτ hQ)

theorem mono (h : Extends t chain Q c c') (hsub : ∀ τ, Q τ → P τ) : Extends t chain P c c' :=
  ⟨h.sound, h.grows, fun τ hτ hP => h.frame τ hτ fun hQ => hP (hsub τ hQ)⟩

theorem store (h : c.Sound t chain) (hg : t.grammar.WellFormed) {e : Edge}
    (he : e.Supported t chain) (hacc : c.accepts e = true) (hQ : Q e.target) :
    Extends t chain Q c (c.store t.grammar e) where
  sound := h.store hg he hacc
  grows := h.coherent.grows_store (h.isFor.hasTarget_of_supported hg he) hacc
  frame τ hτ hnot := by
    rw [scoreAt_store h.coherent.sized (h.isFor.hasTarget_of_supported hg he) hτ]
    refine if_neg ?_
    rintro rfl
    exact hnot hQ

theorem dominates (h : Extends t chain Q c c') (hc : c.Sound t chain) (hg : t.grammar.WellFormed)
    {D : Derivation} (hD : D.Obeys t chain) (hdom : c.Dominates t D) : c'.Dominates t D :=
  dominates_of_grows h.grows hc.isFor hg hD hdom

/-- A slot goes up only where one of its layers is written to. -/
theorem bestAt_le (h : Extends t chain Q c c') (hc : c.Sound t chain) {x : Slot}
    (hx : c.HasSlot x) (hnot : ∀ d, ¬ Q ⟨x, d⟩) : (c'.bestAt x).rank ≤ (c.bestAt x).rank := by
  have hx' := h.grows.hasSlot.2 hx
  have htop := h.grows.hasTarget.1 (h.sound.coherent.hasTarget_topOf hx')
  rw [h.sound.coherent.best_eq x hx', h.frame _ htop (hnot _)]
  exact hc.coherent.score_le _ htop

end Extends

/-- A cell without scores lists nothing. -/
theorem Coherent.populated_eq_nil {g : Grammar} (h : c.Coherent g) {start stop : Nat}
    (hspan : IsSpan c.size start stop)
    (hblank : ∀ nt d, c.HasTarget ⟨⟨start, stop, nt⟩, d⟩ →
      c.scoreAt ⟨⟨start, stop, nt⟩, d⟩ = .unreachable) :
    c.populated start stop = [] := by
  rw [List.eq_nil_iff_forall_not_mem]
  intro nt hmem
  obtain ⟨hnt, hreach⟩ := (h.populated_iff _ _ _ hspan).1 hmem
  have hslot : c.HasSlot ⟨start, stop, nt⟩ := ⟨hspan, hnt⟩
  rw [h.best_eq _ hslot, topOf, hblank nt _ (h.hasTarget_topOf hslot)] at hreach
  cases hreach

/-! ## Seeding a word -/

/-- The targets that the seeds of a word are of. -/
def OfWord (i : Nat) (τ : Target) : Prop :=
  τ.slot.start = i ∧ τ.slot.stop = i + 1 ∧ τ.layer = 0

/-- Commit some lexical productions over the word at a position. -/
def seedAll (g : Grammar) (c : Chart) (i : Nat) (ids : List ProductionId) :
    Array NonTerminal × Chart :=
  ids.foldl
    (fun (changed, c) id =>
      let e := Edge.lexical g id i
      if c.accepts e then (changed.push e.parent, c.store g e) else (changed, c))
    (#[], c)

theorem seed_eq (g : Grammar) (c : Chart) (word : Option WordId) (i : Nat) :
    c.seed g word i = c.seedAll g i (g.lexicalWith word) := rfl

theorem seedAll_append (g : Grammar) (c : Chart) (i : Nat) (ids : List ProductionId)
    (id : ProductionId) :
    c.seedAll g i (ids ++ [id]) =
      if (c.seedAll g i ids).2.accepts (Edge.lexical g id i) then
        ((c.seedAll g i ids).1.push (g.production id).parent,
          (c.seedAll g i ids).2.store g (Edge.lexical g id i))
      else c.seedAll g i ids := by
  rw [seedAll, List.foldl_append]
  rfl

/-- An invariant that every accepted seed keeps holds after all of them. -/
theorem seedAll_induction {I : Chart → Prop} {g : Grammar} {i : Nat} {ids : List ProductionId}
    (h : I c) (hstore : ∀ c' id, id ∈ ids → I c' → c'.accepts (Edge.lexical g id i) = true →
      I (c'.store g (Edge.lexical g id i))) : I (c.seedAll g i ids).2 := by
  induction ids using List.reverseRecOn with
  | nil => exact h
  | append_singleton ids id ih =>
      have hbefore := ih fun c' id' hid' => hstore c' id' (List.mem_append_left _ hid')
      rw [seedAll_append]
      split
      · next hacc =>
        exact hstore _ id (List.mem_append_right _ (List.mem_singleton_self id)) hbefore hacc
      · exact hbefore

/-- What the lexicon entry of a position provides. -/
theorem supported_of_mem_lexicalWith (hg : t.grammar.WellFormed) {i : Nat}
    (hi : i < t.sentence.size) {id : ProductionId}
    (hid : id ∈ t.grammar.lexicalWith (t.sentence.token? i)) :
    (Edge.lexical t.grammar id i).Supported t chain := by
  obtain ⟨hlt, hword⟩ := hg.mem_lexicalWith.1 hid
  exact Attains.supported_lexical hi hlt hword

section

variable {i : Nat} {ids : List ProductionId}

theorem extends_seedAll (h : c.Sound t chain) (hg : t.grammar.WellFormed)
    (hsup : ∀ id ∈ ids, (Edge.lexical t.grammar id i).Supported t chain) :
    Extends t chain (OfWord i) c (c.seedAll t.grammar i ids).2 :=
  seedAll_induction (Extends.refl h) fun _ id hid hbefore hacc =>
    hbefore.trans (Extends.store hbefore.sound hg (hsup id hid) hacc ⟨rfl, rfl, rfl⟩)

/-- Every lexical production seeded is reached by its layer. -/
theorem le_scoreAt_seedAll (h : c.Sound t chain) (hg : t.grammar.WellFormed)
    (hsup : ∀ id ∈ ids, (Edge.lexical t.grammar id i).Supported t chain) :
    ∀ id ∈ ids, (t.grammar.production id).logprob.rank ≤
      ((c.seedAll t.grammar i ids).2.scoreAt (Edge.lexical t.grammar id i).target).rank := by
  induction ids using List.reverseRecOn with
  | nil => exact nofun
  | append_singleton ids id ih =>
      have hsup' : ∀ id' ∈ ids, (Edge.lexical t.grammar id' i).Supported t chain :=
        fun id' hid' => hsup id' (List.mem_append_left _ hid')
      have hid := hsup id (List.mem_append_right _ (List.mem_singleton_self id))
      have hsound := (extends_seedAll h hg hsup').sound
      have htarget := hsound.isFor.hasTarget_of_supported hg hid
      intro id' hid'
      rw [seedAll_append]
      split
      · next hacc =>
        rcases List.mem_append.1 hid' with hold | hnew
        · have hgrows := hsound.coherent.grows_store htarget hacc
          exact Int.le_trans (ih hsup' id' hold) (hgrows.score_le _
            (hsound.isFor.hasTarget_of_supported hg (hsup' id' hold)))
        · rw [List.mem_singleton] at hnew
          subst hnew
          rw [scoreAt_store hsound.coherent.sized htarget htarget, if_pos rfl]
          exact Int.le_refl _
      · next hacc =>
        rcases List.mem_append.1 hid' with hold | hnew
        · exact ih hsup' id' hold
        · rw [List.mem_singleton] at hnew
          subst hnew
          exact Score.rank_le_of_not_improves (inside_ne_nan_of_supported hg hid)
            (hsound.coherent.number _ htarget) hacc

/-- The nonterminals answered are parents of the productions seeded. -/
theorem mem_fst_seedAll {nt : NonTerminal} (h : nt ∈ (c.seedAll t.grammar i ids).1.toList) :
    nt ∈ ids.map fun id => (t.grammar.production id).parent := by
  induction ids using List.reverseRecOn with
  | nil => cases h
  | append_singleton ids id ih =>
      rw [List.map_append]
      rw [seedAll_append] at h
      split at h
      · rw [Array.toList_push] at h
        rcases List.mem_append.1 h with hold | hlast
        · exact List.mem_append_left _ (ih hold)
        · exact List.mem_append_right _ hlast
      · exact List.mem_append_left _ (ih h)

/-- A nonterminal that is not answered keeps its score. -/
theorem scoreAt_seedAll (h : c.Sound t chain) (hg : t.grammar.WellFormed)
    (hsup : ∀ id ∈ ids, (Edge.lexical t.grammar id i).Supported t chain) {τ : Target}
    (hτ : c.HasTarget τ)
    (hnot : OfWord i τ → τ.slot.symbol ∉ (c.seedAll t.grammar i ids).1.toList) :
    (c.seedAll t.grammar i ids).2.scoreAt τ = c.scoreAt τ := by
  induction ids using List.reverseRecOn with
  | nil => rfl
  | append_singleton ids id ih =>
      have hsup' : ∀ id' ∈ ids, (Edge.lexical t.grammar id' i).Supported t chain :=
        fun id' hid' => hsup id' (List.mem_append_left _ hid')
      have hextends := extends_seedAll h hg hsup'
      have htarget := hextends.sound.isFor.hasTarget_of_supported hg
        (hsup id (List.mem_append_right _ (List.mem_singleton_self id)))
      rw [seedAll_append] at hnot ⊢
      split
      · next hacc =>
        simp only [if_pos hacc, Array.toList_push, List.mem_append, List.mem_singleton] at hnot
        rw [scoreAt_store hextends.sound.coherent.sized htarget (hextends.grows.hasTarget.2 hτ),
          if_neg]
        · exact ih hsup' fun hword hmem => hnot hword (Or.inl hmem)
        · rintro rfl
          exact hnot ⟨rfl, rfl, rfl⟩ (Or.inr rfl)
      · next hacc =>
        rw [if_neg hacc] at hnot
        exact ih hsup' hnot

/-- Productions with different parents populate one slot each of a blank cell. -/
theorem fst_seedAll (h : c.Sound t chain) (hg : t.grammar.WellFormed)
    (hspan : IsSpan c.size i (i + 1)) (hempty : c.populated i (i + 1) = [])
    (hsup : ∀ id ∈ ids, (Edge.lexical t.grammar id i).Supported t chain)
    (hparents : (ids.map fun id => (t.grammar.production id).parent).Nodup) :
    (c.seedAll t.grammar i ids).1.toList = (c.seedAll t.grammar i ids).2.populated i (i + 1) := by
  induction ids using List.reverseRecOn with
  | nil => exact hempty.symm
  | append_singleton ids id ih =>
      have hsup' : ∀ id' ∈ ids, (Edge.lexical t.grammar id' i).Supported t chain :=
        fun id' hid' => hsup id' (List.mem_append_left _ hid')
      have hid := hsup id (List.mem_append_right _ (List.mem_singleton_self id))
      rw [List.map_append, List.map_singleton, List.nodup_append] at hparents
      obtain ⟨hnodup, -, hdisjoint⟩ := hparents
      have heq := ih hsup' hnodup
      have hextends := extends_seedAll h hg hsup'
      have hspan' : IsSpan (c.seedAll t.grammar i ids).2.size i (i + 1) := by
        rw [hextends.grows.size_eq]
        exact hspan
      have htarget := hextends.sound.isFor.hasTarget_of_supported hg hid
      rw [seedAll_append]
      split
      · next hacc =>
        -- The parent is not among those before it, so its slot is new.
        have hnew : (c.seedAll t.grammar i ids).2.isNew (Edge.lexical t.grammar id i) = true := by
          rw [hextends.sound.coherent.isNew_iff htarget.1]
          intro hreach
          have hmem := (hextends.sound.coherent.populated_iff _ _ _ hspan').2 ⟨htarget.1.2, hreach⟩
          rw [← heq] at hmem
          exact hdisjoint _ (mem_fst_seedAll hmem) _ (List.mem_singleton_self _) rfl
        rw [hextends.sound.coherent.populated_store htarget hspan', if_pos ⟨⟨rfl, rfl⟩, hnew⟩,
          Array.toList_push, heq]
        rfl
      · exact heq

end

variable {i : Nat}

theorem extends_seed (h : c.Sound t chain) (hg : t.grammar.WellFormed) (hi : i < t.sentence.size) :
    Extends t chain (OfWord i) c (c.seed t.grammar (t.sentence.token? i) i).2 := by
  rw [seed_eq]
  exact extends_seedAll h hg fun _ hid => supported_of_mem_lexicalWith hg hi hid

/-- Seeding dominates the leaves over the word. -/
theorem seed_dominates (h : c.Sound t chain) (hg : t.grammar.WellFormed) {id : ProductionId}
    (hleaf : (Derivation.leaf id i).Obeys t chain) :
    (c.seed t.grammar (t.sentence.token? i) i).2.Dominates t (.leaf id i) := by
  obtain ⟨hi, hid, hword⟩ := hleaf
  intro x hx
  cases hx
  rw [seed_eq]
  exact le_scoreAt_seedAll h hg (fun _ hid => supported_of_mem_lexicalWith hg hi hid) id
    (hg.mem_lexicalWith.2 ⟨hid, hword⟩)

/-- Seeding a blank cell answers with the nonterminals it lists afterwards. -/
theorem seed_fst (h : c.Sound t chain) (hg : t.grammar.WellFormed) (hi : i < t.sentence.size)
    (hempty : c.populated i (i + 1) = []) :
    (c.seed t.grammar (t.sentence.token? i) i).1.toList =
      (c.seed t.grammar (t.sentence.token? i) i).2.populated i (i + 1) := by
  have hspan : IsSpan c.size i (i + 1) := by
    rw [h.isFor.size_eq]
    exact ⟨Nat.lt_succ_self i, hi⟩
  rw [seed_eq]
  exact fst_seedAll h hg hspan hempty (fun _ hid => supported_of_mem_lexicalWith hg hi hid)
    (hg.nodup_parents _)

end Chart
end BestParse
