import BestParse.Proofs.Chart.Exact

/-!
# Comparing the charts of two tasks

Two tasks with different grammars or limits fill charts with different edges, layers and
lists, and no chart invariant relates the two.  Derivations do.  A slot of one task *carries
over* to a slot of the other when each of its derivations has one there with the same score.
The second slot is then at least as good, as long as the first chart is sound and the second
bounds the slot (`Sound.bestAt_le_of_carries`).

An exact chart is sound and bounds every slot.  So between exact charts a slot that carries
over keeps or raises its score (`Exact.isAtMost_of_carries`) and stays populated, the sentence
stays parsed when the root carries over, and slots that carry over both ways agree.
-/

namespace BestParse

/-- Each derivation of the first slot has one of the second slot with the same score. -/
def Slot.Carries (t : Task) (chain : Nat) (x : Slot) (t' : Task) (chain' : Nat) (x' : Slot) :
    Prop :=
  ∀ D : Derivation, D.Obeys t chain → D.slot t.grammar = x →
    ∃ D' : Derivation, D'.Obeys t' chain' ∧ D'.slot t'.grammar = x' ∧
      D'.score t'.grammar = D.score t.grammar

theorem Outcome.eq_of_parsed_iff {o o' : Outcome} (h : o = .parsed ↔ o' = .parsed) : o = o' := by
  cases o with
  | parsed => exact (h.1 rfl).symm
  | noParse =>
      cases o' with
      | parsed => exact h.2 rfl
      | noParse => rfl

namespace Chart

variable {t t' : Task} {chain chain' : Nat} {c c' : Chart} {x x' : Slot}

theorem Sound.bestAt_le_of_carries (h : c.Sound t chain) (hx : c.HasSlot x)
    (hbound : c'.Bounds t' chain' x') (hcarry : x.Carries t chain t' chain' x') :
    (c.bestAt x).rank ≤ (c'.bestAt x').rank := by
  by_cases hreach : (c.bestAt x).isReachable = true
  · obtain ⟨D, hD, hslot, hscore⟩ := h.attained_best hx hreach
    obtain ⟨D', hD', hslot', hscore'⟩ := hcarry D hD hslot
    exact hbound D' hD' hslot' _ (hscore'.trans hscore)
  · rw [Score.eq_unreachable_of_not_isReachable (h.coherent.best_number hx) hreach]
    exact Score.negInf_rank_le _

namespace Exact

theorem isAtMost_of_carries (h : c.Exact t chain) (h' : c'.Exact t' chain')
    (hg' : t'.grammar.WellFormed) (hx : c.HasSlot x) (hx' : c'.HasSlot x')
    (hcarry : x.Carries t chain t' chain' x') :
    (c.bestAt x).isAtMost (c'.bestAt x') = true := by
  rw [Score.isAtMost_iff]
  exact ⟨h.coherent.best_number hx, h'.coherent.best_number hx',
    h.bestAt_le_of_carries hx (h'.bounds hg' x') hcarry⟩

theorem agrees_of_carries (h : c.Exact t chain) (h' : c'.Exact t' chain')
    (hg : t.grammar.WellFormed) (hg' : t'.grammar.WellFormed) (hx : c.HasSlot x)
    (hx' : c'.HasSlot x') (hcarry : x.Carries t chain t' chain' x')
    (hback : x'.Carries t' chain' t chain x) : (c.bestAt x).Agrees (c'.bestAt x') :=
  ⟨h.coherent.best_number hx, h'.coherent.best_number hx',
    Int.le_antisymm (h.bestAt_le_of_carries hx (h'.bounds hg' x') hcarry)
      (h'.bestAt_le_of_carries hx' (h.bounds hg x) hback)⟩

theorem isReachable_of_carries (h : c.Exact t chain) (h' : c'.Exact t' chain')
    (hg' : t'.grammar.WellFormed) (hx : c.HasSlot x) (hx' : c'.HasSlot x')
    (hcarry : x.Carries t chain t' chain' x') (hreach : (c.bestAt x).isReachable = true) :
    (c'.bestAt x').isReachable = true :=
  Score.isReachable_mono hreach (h'.coherent.best_number hx')
    (h.bestAt_le_of_carries hx (h'.bounds hg' x') hcarry)

theorem mem_populated_of_carries (h : c.Exact t chain) (h' : c'.Exact t' chain')
    (hg' : t'.grammar.WellFormed) {start stop start' stop' : Nat} {nt nt' : NonTerminal}
    (hspan : IsSpan c.size start stop) (hspan' : IsSpan c'.size start' stop')
    (hnt' : nt' < c'.symbols)
    (hcarry : Slot.Carries t chain ⟨start, stop, nt⟩ t' chain' ⟨start', stop', nt'⟩)
    (hmem : nt ∈ c.populated start stop) : nt' ∈ c'.populated start' stop' := by
  obtain ⟨hnt, hreach⟩ := (h.coherent.populated_iff _ _ _ hspan).1 hmem
  have hreach' := h.isReachable_of_carries h' hg' ⟨hspan, hnt⟩ ⟨hspan', hnt'⟩ hcarry hreach
  exact (h'.coherent.populated_iff _ _ _ hspan').2 ⟨hnt', hreach'⟩

/-- A sentence stays parsed when its root carries over. -/
theorem parsed_of_carries (h : c.Exact t chain) (h' : c'.Exact t' chain')
    (hg : t.grammar.WellFormed) (hg' : t'.grammar.WellFormed)
    (hsize : t'.sentence.size = t.sentence.size)
    (hcarry : t.root.Carries t chain t' chain' t'.root)
    (hparsed : c.outcome t.grammar = .parsed) : c'.outcome t'.grammar = .parsed := by
  rw [outcome_eq_parsed_iff] at hparsed ⊢
  have hwords : t.sentence.size ≠ 0 := by
    intro hzero
    rw [isComplete, h.isFor.size_eq, hzero] at hparsed
    cases hparsed
  have hwords' : t'.sentence.size ≠ 0 := hsize ▸ hwords
  rw [h'.isComplete_iff hg' hwords']
  exact h.isReachable_of_carries h' hg' (h.isFor.hasSlot_root hg hwords)
    (h'.isFor.hasSlot_root hg' hwords') hcarry ((h.isComplete_iff hg hwords).1 hparsed)

end Exact
end Chart
end BestParse
