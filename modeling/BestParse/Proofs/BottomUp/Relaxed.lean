import BestParse.Proofs.BottomUp.Viterbi
import BestParse.Proofs.Chart.Comparison

/-!
# Relaxing the limits

Limits lie *within* others when, over every span of the sentence, the others permit what they
permit: binary edges, unary productions, parents and split points.  A derivation that keeps
to limits and to a bound on unary productions keeps to laxer ones too
(`Derivation.obeys_relaxed`), as the same tree with the same score.  So every slot carries
over, and a bottom-up search under laxer limits scores no slot lower, empties none and loses
no parse (`BottomUp.relaxed_parse`).

The two searches may use different discoveries.  Nothing is said about the layers or
backpointers of a slot, which may change with every limit.
-/

namespace BestParse

/-- Over every span of a sentence, the second limits permit what the first permit. -/
structure Limits.Within (l l' : Limits) (size : Nat) : Prop where
  isOpen : ∀ start stop, IsSpan size start stop →
    l.isOpen start stop = true → l'.isOpen start stop = true
  unaryOpen : ∀ start stop, IsSpan size start stop →
    l.unaryOpen start stop = true → l'.unaryOpen start stop = true
  onlyFactored : ∀ start stop, IsSpan size start stop →
    l'.onlyFactored start stop = true → l.onlyFactored start stop = true
  splits : ∀ start stop, IsSpan size start stop → ∀ mid,
    (l.splits start stop).contains mid = true → (l'.splits start stop).contains mid = true

namespace Limits

variable {l l' : Limits} {size : Nat}

theorem Within.allows (h : l.Within l' size) {g : Grammar} {start stop : Nat}
    (hspan : IsSpan size start stop) {parent : NonTerminal}
    (hallows : l.allows g start stop parent = true) : l'.allows g start stop parent = true := by
  simp only [Limits.allows, Bool.or_eq_true, Bool.not_eq_true'] at hallows ⊢
  refine hallows.imp_left fun hnot => ?_
  cases hl' : l'.onlyFactored start stop with
  | false => rfl
  | true =>
      rw [h.onlyFactored start stop hspan hl'] at hnot
      cases hnot

/-- All limits lie within none. -/
theorem within_none (l : Limits) (size : Nat) : l.Within .none size where
  isOpen _ _ _ _ := rfl
  unaryOpen _ _ _ _ := rfl
  onlyFactored _ _ _ h := by cases h
  splits start stop _ mid h := by
    obtain ⟨hleft, hright⟩ := splits_inside h
    exact contains_splits.2 ⟨hleft, hright, nofun⟩

end Limits

/-- A derivation obeys laxer limits and a greater bound on unary productions. -/
theorem Derivation.obeys_relaxed {t : Task} {limits : Limits} {chain chain' : Nat}
    (hlimits : t.limits.Within limits t.sentence.size) (hchain : chain ≤ chain')
    {D : Derivation} (hD : D.Obeys t chain) : D.Obeys { t with limits } chain' := by
  induction D with
  | leaf id i => exact hD
  | unary id c ih =>
      obtain ⟨hc, hdepth, hid, hexp, hopen, hallows⟩ := hD
      have hspan := isSpan_of_obeys hc
      exact ⟨ih hc, Nat.lt_of_lt_of_le hdepth hchain, hid, hexp,
        hlimits.unaryOpen _ _ hspan hopen, hlimits.allows hspan hallows⟩
  | binary id l r ihl ihr =>
      have hspan : IsSpan t.sentence.size l.start r.stop := isSpan_of_obeys hD
      obtain ⟨hl, hr, hmeet, hid, hexp, hopen, hsplit, hallows⟩ := hD
      exact ⟨ihl hl, ihr hr, hmeet, hid, hexp, hlimits.isOpen _ _ hspan hopen,
        hlimits.splits _ _ hspan _ hsplit, hlimits.allows hspan hallows⟩

theorem Slot.carries_relaxed {t : Task} {limits : Limits} {chain chain' : Nat}
    (hlimits : t.limits.Within limits t.sentence.size) (hchain : chain ≤ chain') (x : Slot) :
    x.Carries t chain { t with limits } chain' x :=
  fun D hD hslot => ⟨D, Derivation.obeys_relaxed hlimits hchain hD, hslot, rfl⟩

namespace BottomUp

open Chart

/-- Laxer limits and longer runs of unary productions lower no score, empty no slot and lose
no parse, whatever the discoveries.  The laxer search faults only at an open span whose split
points leave machine words. -/
theorem relaxed_parse {d : Draft} {t : Task} (hbuild : d.build = .ok t.grammar) (b b' : BottomUp)
    (limits : Limits) (hchain : b.maxChain ≤ b'.maxChain)
    (hlimits : t.limits.Within limits t.sentence.size) :
    (∀ start stop nt, IsSpan t.sentence.size start stop → nt < t.grammar.numNonterminals →
      ((b.parse t).1.chart.inside start stop nt).isAtMost
        ((b'.parse { t with limits }).1.chart.inside start stop nt) = true) ∧
    (∀ start stop nt, IsSpan t.sentence.size start stop → nt < t.grammar.numNonterminals →
      (b.parse t).1.chart.isPopulated start stop nt = true →
      (b'.parse { t with limits }).1.chart.isPopulated start stop nt = true) ∧
    (∀ start stop, IsSpan t.sentence.size start stop →
      ∀ nt ∈ (b.parse t).1.chart.populated start stop,
        nt ∈ (b'.parse { t with limits }).1.chart.populated start stop) ∧
    ((b.parse t).1.outcome = .parsed → (b'.parse { t with limits }).1.outcome = .parsed) ∧
    ((b'.parse { t with limits }).1.faulty = true →
      ∃ start stop, start + 2 ≤ stop ∧ stop ≤ t.sentence.size ∧
        limits.isOpen start stop = true ∧ limits.splitsFit start stop = false) := by
  have hg := wellFormed_of_build hbuild
  have hexact := exact_parse (t := t) b hg
  have hexact' := exact_parse (t := { t with limits }) b' hg
  have hcarry := Slot.carries_relaxed hlimits hchain
  refine ⟨?_, ?_, ?_, ?_, (faulty_parse_iff b' { t with limits }).1⟩
  · intro start stop nt hspan hnt
    rw [inside_eq, inside_eq]
    exact hexact.isAtMost_of_carries hexact' hg
      (hexact.isFor.hasTarget_mk hspan hnt (Nat.zero_le _)).1
      (hexact'.isFor.hasTarget_mk hspan hnt (Nat.zero_le _)).1 (hcarry _)
  · intro start stop nt hspan hnt hpopulated
    have hx := (hexact.isFor.hasTarget_mk hspan hnt (Nat.zero_le _)).1
    have hx' := (hexact'.isFor.hasTarget_mk hspan hnt (Nat.zero_le _)).1
    have hreach := (hexact.coherent.isPopulated_iff hx).1 hpopulated
    exact (hexact'.coherent.isPopulated_iff hx').2
      (hexact.isReachable_of_carries hexact' hg hx hx' (hcarry _) hreach)
  · intro start stop hspan nt hmem
    have hspan₁ : IsSpan (b.parse t).1.chart.size start stop := hexact.isFor.size_eq ▸ hspan
    have hspan₂ : IsSpan (b'.parse { t with limits }).1.chart.size start stop :=
      hexact'.isFor.size_eq ▸ hspan
    have hnt : nt < t.grammar.numNonterminals :=
      hexact.isFor.symbols_eq ▸ ((hexact.coherent.populated_iff _ _ _ hspan₁).1 hmem).1
    exact hexact.mem_populated_of_carries hexact' hg hspan₁ hspan₂
      (hexact'.isFor.symbols_eq ▸ hnt) (hcarry _) hmem
  · exact hexact.parsed_of_carries hexact' hg hg rfl (hcarry t.root)

/-- Two words of a grammar with a circle of unary productions stay parsed when the unary
productions over both words are permitted and longer runs of them too. -/
theorem relaxed_parse_circular :
    ((BottomUp.mk .extents 2 {}).parse circularTask).1.outcome = .parsed := by
  have hparsed : ((BottomUp.mk .pairs 1 {}).parse
      { circularTask with limits := { noUnary := [(0, 2)] } }).1.outcome = .parsed := by
    decide +kernel
  have hlimits := Limits.within_none { noUnary := [(0, 2)] } circularTask.sentence.size
  exact (relaxed_parse (t := { circularTask with limits := { noUnary := [(0, 2)] } })
    circularDraft_builds (.mk .pairs 1 {}) (.mk .extents 2 {}) .none (by decide) hlimits).2.2.2.1
    hparsed

end BottomUp
end BestParse
