import BestParse.Search.Queue
import BestParse.Proofs.Chart.Coherence

/-!
# What queues promise

A queue is the list of its edges in the order in which they are taken, the greatest
figure of merit first.  Taking an edge takes the head of the list (`fst_pop`,
`toList_pop`), and offering one adds at most that edge (`mem_push`, `size_push_le`).

A score is *met* at a target when the target's layer holds it already or an edge that
waits will bring it there.  Offering an edge keeps all that is met and meets the edge's
own score (`meets_push`, `meets_push_self`).  For a stable queue this is plain.  A memo
queue drops edges, and the argument needs that figures of merit are scores: what it
declines or replaces is met by a better edge for the same target (`Keeps`).
-/

namespace BestParse

/-! ## Taking and offering -/

namespace EdgeQueue

/-- The edges stand in the order of their figures of merit. -/
def Sorted (q : EdgeQueue) : Prop := q.toList.Pairwise fun x y => y.fom.rank ≤ x.fom.rank

theorem toList_reset (q : EdgeQueue) : q.reset.toList = [] := by
  cases q <;> rfl

theorem fst_pop (q : EdgeQueue) : q.pop.1 = q.toList.head? := by
  cases q with
  | stable q =>
      obtain ⟨entries⟩ := q
      cases entries <;> rfl
  | memo q =>
      obtain ⟨⟨entries⟩, best, suppressed⟩ := q
      cases entries <;> rfl

theorem toList_pop (q : EdgeQueue) : q.pop.2.toList = q.toList.tail := by
  cases q with
  | stable q =>
      obtain ⟨entries⟩ := q
      cases entries <;> rfl
  | memo q =>
      obtain ⟨⟨entries⟩, best, suppressed⟩ := q
      cases entries <;> rfl

theorem mem_push {q : EdgeQueue} {e f : Edge} (h : f ∈ (q.push e).2.toList) :
    f = e ∨ f ∈ q.toList := by
  cases q with
  | stable q => exact StableQueue.mem_insert.1 h
  | memo q =>
      change f ∈ (q.push e).2.waiting.entries at h
      unfold MemoQueue.push at h
      split at h
      · rcases StableQueue.mem_insert.1 h with hnew | hold
        · exact Or.inl hnew
        · exact Or.inr (List.mem_filter.1 hold).1
      · exact Or.inr h

theorem size_push_le (q : EdgeQueue) (e : Edge) : (q.push e).2.size ≤ q.size + 1 := by
  cases q with
  | stable q => exact Nat.le_of_eq (StableQueue.length_insert e q.entries)
  | memo q =>
      change (q.push e).2.waiting.entries.length ≤ q.waiting.entries.length + 1
      unfold MemoQueue.push
      split
      · refine Nat.le_trans (Nat.le_of_eq (StableQueue.length_insert e _)) ?_
        exact Nat.succ_le_succ (List.length_filter_le _ _)
      · exact Nat.le_succ _

theorem Sorted.push {q : EdgeQueue} (h : q.Sorted) (e : Edge) : (q.push e).2.Sorted := by
  cases q with
  | stable q => exact StableQueue.pairwise_insert e h
  | memo q =>
      change (q.push e).2.waiting.entries.Pairwise _
      unfold MemoQueue.push
      split
      · exact StableQueue.pairwise_insert e (List.Pairwise.filter _ h)
      · exact h

theorem Sorted.pop {q : EdgeQueue} (h : q.Sorted) : q.pop.2.Sorted := by
  unfold Sorted
  rw [toList_pop]
  exact List.Pairwise.tail h

end EdgeQueue

/-! ## The best figures of a memo queue -/

theorem Target.key_inj {τ τ' : Target} (h : τ.key = τ'.key) : τ = τ' := by
  obtain ⟨⟨start, stop, symbol⟩, layer⟩ := τ
  obtain ⟨⟨start', stop', symbol'⟩, layer'⟩ := τ'
  cases h
  rfl

namespace TargetMap

variable {β : Type} (m : TargetMap β) (τ τ' : Target)

theorem getElem?_insert (v : β) :
    (m.insert τ.key v)[τ'.key]? = if τ' = τ then some v else m[τ'.key]? := by
  rw [Std.TreeMap.getElem?_insert]
  by_cases hτ : τ' = τ
  · rw [if_pos hτ, hτ, if_pos (Std.LawfulEqCmp.compare_eq_iff_eq.2 rfl)]
  · rw [if_neg hτ, if_neg]
    intro heq
    exact hτ (Target.key_inj (Std.LawfulEqCmp.compare_eq_iff_eq.1 heq)).symm

theorem getElem?_erase : (m.erase τ.key)[τ'.key]? = if τ' = τ then none else m[τ'.key]? := by
  rw [Std.TreeMap.getElem?_erase]
  by_cases hτ : τ' = τ
  · rw [if_pos hτ, hτ, if_pos (Std.LawfulEqCmp.compare_eq_iff_eq.2 rfl)]
  · rw [if_neg hτ, if_neg]
    intro heq
    exact hτ (Target.key_inj (Std.LawfulEqCmp.compare_eq_iff_eq.1 heq)).symm

end TargetMap

namespace MemoQueue

theorem best?_push {q : MemoQueue} {e : Edge} (hacc : q.accepts e = true) (τ : Target) :
    (q.push e).2.best? τ = if τ = e.target then some e.fom else q.best? τ := by
  unfold push
  rw [if_pos hacc]
  exact TargetMap.getElem?_insert _ _ _ _

theorem mem_push_of_accepts {q : MemoQueue} {e f : Edge} (hacc : q.accepts e = true) :
    f ∈ (q.push e).2.waiting.entries ↔ f = e ∨ f ∈ q.waiting.entries ∧ f.target ≠ e.target := by
  unfold push
  rw [if_pos hacc]
  change f ∈ StableQueue.insert e (q.waiting.entries.filter _) ↔ _
  rw [StableQueue.mem_insert, List.mem_filter, decide_eq_true_iff]

end MemoQueue

/-! ## Scores that are met -/

/-- The target holds a score, or an edge that waits will bring it. -/
def Meets (c : Chart) (waiting : List Edge) (τ : Target) (x : Score) : Prop :=
  x.rank ≤ (c.scoreAt τ).rank ∨ ∃ f ∈ waiting, f.target = τ ∧ x.rank ≤ f.inside.rank

section

variable {c c' : Chart} {waiting : List Edge} {τ : Target} {x y : Score}

theorem Meets.mono (h : Meets c waiting τ y) (hle : x.rank ≤ y.rank) : Meets c waiting τ x := by
  rcases h with hchart | ⟨f, hf, hτ, hfle⟩
  · exact Or.inl (Int.le_trans hle hchart)
  · exact Or.inr ⟨f, hf, hτ, Int.le_trans hle hfle⟩

theorem Meets.grows (h : Meets c waiting τ x) (hgrows : c.Grows c') (hτ : c.HasTarget τ) :
    Meets c' waiting τ x :=
  h.imp_left fun hchart => Int.le_trans hchart (hgrows.score_le τ hτ)

/-- An edge is taken out when the chart has come to hold its score. -/
theorem Meets.taken {e : Edge} (h : Meets c (e :: waiting) τ x) (hgrows : c.Grows c')
    (hτ : c.HasTarget τ) (he : e.inside.rank ≤ (c'.scoreAt e.target).rank) :
    Meets c' waiting τ x := by
  rcases h.grows hgrows hτ with hchart | ⟨f, hf, hfτ, hfle⟩
  · exact Or.inl hchart
  · rcases List.mem_cons.1 hf with rfl | hrest
    · subst hfτ
      exact Or.inl (Int.le_trans hfle he)
    · exact Or.inr ⟨f, hrest, hfτ, hfle⟩

theorem Meets.of_empty (h : Meets c [] τ x) : x.rank ≤ (c.scoreAt τ).rank := by
  rcases h with hchart | ⟨f, hf, -⟩
  · exact hchart
  · cases hf

end

/-! ## What a memo queue keeps -/

/-- A memo queue of edges rated by their scores: it remembers at least the score of every
edge that waits, and what it remembers is met. -/
structure MemoQueue.Keeps (c : Chart) (q : MemoQueue) : Prop where
  best_ge : ∀ f ∈ q.waiting.entries, ∃ v, q.best? f.target = some v ∧ f.inside.rank ≤ v.rank
  best_number : ∀ τ v, q.best? τ = some v → v ≠ .nan
  best_met : ∀ τ v, c.HasTarget τ → q.best? τ = some v → Meets c q.waiting.entries τ v

/-- A memo queue keeps its promise; a stable queue has none to keep. -/
def EdgeQueue.Keeps (c : Chart) : EdgeQueue → Prop
  | .stable _ => True
  | .memo q => q.Keeps c

/-- The queue may be offered an edge: figures of merit matter to a memo queue only. -/
def EdgeQueue.Trusts (q : EdgeQueue) (e : Edge) : Prop :=
  match q with
  | .stable _ => True
  | .memo _ => e.fom = e.inside

section

variable {c c' : Chart} {e : Edge} {τ : Target} {x : Score}

namespace MemoQueue

variable {q : MemoQueue}

/-- An edge that replaces another for its target is the better one. -/
theorem meets_push (h : q.Keeps c) (hfom : e.fom = e.inside)
    (hmeets : Meets c q.waiting.entries τ x) : Meets c (q.push e).2.waiting.entries τ x := by
  cases hacc : q.accepts e with
  | false =>
      unfold push
      rw [hacc]
      exact hmeets
  | true =>
      rcases hmeets with hchart | ⟨f, hf, hfτ, hle⟩
      · exact Or.inl hchart
      · by_cases htarget : f.target = e.target
        · -- The edge is better than all that the queue remembers for the target.
          obtain ⟨v, hbest, hfv⟩ := h.best_ge f hf
          unfold accepts at hacc
          rw [← htarget, hbest] at hacc
          have hlt := (Score.improves_iff.1 hacc).2.2
          rw [hfom] at hlt
          refine Or.inr ⟨e, (mem_push_of_accepts ?_).2 (Or.inl rfl), htarget ▸ hfτ, ?_⟩
          · unfold accepts
            rw [← htarget, hbest]
            exact hacc
          · exact Int.le_trans (Int.le_trans hle hfv) (Int.le_of_lt hlt)
        · exact Or.inr ⟨f, (mem_push_of_accepts hacc).2 (Or.inr ⟨hf, htarget⟩), hfτ, hle⟩

theorem meets_push_self (h : q.Keeps c) (hfom : e.fom = e.inside) (hnum : e.inside ≠ .nan)
    (htarget : c.HasTarget e.target) :
    Meets c (q.push e).2.waiting.entries e.target e.inside := by
  cases hacc : q.accepts e with
  | true => exact Or.inr ⟨e, (mem_push_of_accepts hacc).2 (Or.inl rfl), rfl, Int.le_refl _⟩
  | false =>
      -- A declined edge is no better than what is remembered, and that is met.
      unfold push
      rw [hacc]
      unfold accepts at hacc
      cases hbest : q.best? e.target with
      | none => rw [hbest] at hacc; cases hacc
      | some v =>
          rw [hbest] at hacc
          refine (h.best_met _ v htarget hbest).mono ?_
          rw [← hfom] at hnum ⊢
          refine Score.rank_le_of_not_improves hnum (h.best_number _ v hbest) fun himp => ?_
          cases himp.symm.trans hacc

theorem Keeps.push (h : q.Keeps c) (hfom : e.fom = e.inside) (hnum : e.inside ≠ .nan) :
    (q.push e).2.Keeps c := by
  cases hacc : q.accepts e with
  | false =>
      unfold MemoQueue.push
      rw [hacc]
      exact ⟨h.best_ge, h.best_number, h.best_met⟩
  | true =>
      constructor
      · intro f hf
        rw [best?_push hacc]
        rcases (mem_push_of_accepts hacc).1 hf with rfl | ⟨hold, hne⟩
        · exact ⟨_, if_pos rfl, Int.le_of_eq (congrArg Score.rank hfom.symm)⟩
        · rw [if_neg hne]
          exact h.best_ge f hold
      · intro τ v hbest
        rw [best?_push hacc] at hbest
        split at hbest
        · cases hbest
          rw [hfom]
          exact hnum
        · exact h.best_number τ v hbest
      · intro τ v hτ hbest
        rw [best?_push hacc] at hbest
        split at hbest
        · next heq =>
          cases hbest
          refine Or.inr ⟨e, (mem_push_of_accepts hacc).2 (Or.inl rfl), heq.symm, ?_⟩
          exact Int.le_of_eq (congrArg Score.rank hfom)
        · exact meets_push h hfom (h.best_met τ v hτ hbest)

end MemoQueue

namespace EdgeQueue

variable {q : EdgeQueue}

theorem meets_push (h : q.Keeps c) (he : q.Trusts e) (hmeets : Meets c q.toList τ x) :
    Meets c (q.push e).2.toList τ x := by
  cases q with
  | stable q =>
      rcases hmeets with hchart | ⟨f, hf, hfτ, hle⟩
      · exact Or.inl hchart
      · exact Or.inr ⟨f, StableQueue.mem_insert.2 (Or.inr hf), hfτ, hle⟩
  | memo q => exact MemoQueue.meets_push h he hmeets

theorem meets_push_self (h : q.Keeps c) (he : q.Trusts e) (hnum : e.inside ≠ .nan)
    (htarget : c.HasTarget e.target) : Meets c (q.push e).2.toList e.target e.inside := by
  cases q with
  | stable q => exact Or.inr ⟨e, StableQueue.mem_insert.2 (Or.inl rfl), rfl, Int.le_refl _⟩
  | memo q => exact MemoQueue.meets_push_self h he hnum htarget

theorem Keeps.push (h : q.Keeps c) (he : q.Trusts e) (hnum : e.inside ≠ .nan) :
    (q.push e).2.Keeps c := by
  cases q with
  | stable q => trivial
  | memo q => exact MemoQueue.Keeps.push h he hnum

theorem trusts_push {f : Edge} (h : q.Trusts f) : (q.push e).2.Trusts f := by
  cases q with
  | stable q => trivial
  | memo q => exact h

theorem trusts_pop {f : Edge} (h : q.Trusts f) : q.pop.2.Trusts f := by
  cases q with
  | stable q => trivial
  | memo q => exact h

theorem Keeps.grows (h : q.Keeps c) (hgrows : c.Grows c') : q.Keeps c' := by
  cases q with
  | stable q => trivial
  | memo q =>
      refine ⟨h.best_ge, h.best_number, fun τ v hτ hbest => ?_⟩
      have hτ' := hgrows.hasTarget.1 hτ
      exact (h.best_met τ v hτ' hbest).grows hgrows hτ'

/-- Taking an edge keeps the promise once the chart holds the edge's score. -/
theorem Keeps.pop (h : q.Keeps c) (hgrows : c.Grows c') (htop : q.toList.head? = some e)
    (he : e.inside.rank ≤ (c'.scoreAt e.target).rank) : q.pop.2.Keeps c' := by
  cases q with
  | stable q => trivial
  | memo q =>
      obtain ⟨⟨entries⟩, best, suppressed⟩ := q
      obtain ⟨rest, rfl⟩ : ∃ rest, entries = e :: rest := List.head?_eq_some_iff.1 htop
      refine ⟨fun f hf => h.best_ge f (List.mem_cons_of_mem e hf), h.best_number, ?_⟩
      intro τ v hτ hbest
      have hτ' := hgrows.hasTarget.1 hτ
      exact (h.best_met τ v hτ' hbest).taken hgrows hτ' he

theorem keeps_reset (q : EdgeQueue) (c : Chart) : q.reset.Keeps c := by
  cases q with
  | stable q => trivial
  | memo q =>
      refine ⟨nofun, ?_, ?_⟩
      · intro τ v h
        change (∅ : TargetMap Score)[τ.key]? = some v at h
        rw [Std.TreeMap.getElem?_emptyc] at h
        cases h
      · intro τ v _ h
        change (∅ : TargetMap Score)[τ.key]? = some v at h
        rw [Std.TreeMap.getElem?_emptyc] at h
        cases h

end EdgeQueue

end

end BestParse
