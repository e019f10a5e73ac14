import BestParse.Search.Report
import BestParse.Proofs.Grammar.WellFormed

/-!
# Derivations

A derivation is a tree of productions over the words of a sentence.  Its score is
computed from the leaves up, each node from the rounded scores of its children, so
a derivation without a reachable child has no score.

`Obeys` says that a derivation belongs to a task: every node is a production of the
grammar over matching children, leaves stand on their words, no run of unary
productions is longer than the chain allows, and the limits allow every node.

Derivations are what the searches are measured against.  They know nothing of charts.
-/

namespace BestParse

namespace Limits

variable {limits : Limits} {start mid stop : Nat}

/-- Split points lie inside their span, and under a limit on the width of children that near to
both ends.  Nothing else is asked of them. -/
theorem contains_splits :
    (limits.splits start stop).contains mid = true ↔
      start < mid ∧ mid < stop ∧
        ∀ width, limits.maxChildWidth = some width → mid - start ≤ width ∧ stop - mid ≤ width := by
  unfold splits
  cases limits.maxChildWidth with
  | none =>
      simp only [Interval.contains, Bool.and_eq_true, decide_eq_true_eq, reduceCtorEq,
        false_implies, implies_true, and_true, Nat.succ_le_iff]
  | some width =>
      simp only [Interval.contains, Bool.and_eq_true, decide_eq_true_eq, Option.some.injEq,
        forall_eq']
      omega

theorem splits_inside (h : (limits.splits start stop).contains mid = true) :
    start < mid ∧ mid < stop :=
  have hinside := contains_splits.1 h
  ⟨hinside.1, hinside.2.1⟩

end Limits

/-- A tree of productions over positions of a sentence. -/
inductive Derivation where
  | leaf (production : ProductionId) (position : Nat)
  | unary (production : ProductionId) (child : Derivation)
  | binary (production : ProductionId) (left right : Derivation)

namespace Derivation

/-- The production at the root. -/
def production : Derivation → ProductionId
  | .leaf id _ => id
  | .unary id _ => id
  | .binary id _ _ => id

/-- The nonterminal derived. -/
def symbol (g : Grammar) (D : Derivation) : NonTerminal := (g.production D.production).parent

/-- The position of the first word. -/
def start : Derivation → Nat
  | .leaf _ i => i
  | .unary _ c => c.start
  | .binary _ l _ => l.start

/-- The position after the last word. -/
def stop : Derivation → Nat
  | .leaf _ i => i + 1
  | .unary _ c => c.stop
  | .binary _ _ r => r.stop

/-- How many unary productions stand at the root, one above the other. -/
def depth : Derivation → Nat
  | .unary _ c => c.depth + 1
  | _ => 0

/-- The positions of the leaves, from left to right. -/
def positions : Derivation → List Nat
  | .leaf _ i => [i]
  | .unary _ c => c.positions
  | .binary _ l r => l.positions ++ r.positions

/-- The slot a derivation is of. -/
def slot (g : Grammar) (D : Derivation) : Slot := ⟨D.start, D.stop, D.symbol g⟩

/-- The slot layer a derivation is of. -/
def target (g : Grammar) (D : Derivation) : Target := ⟨D.slot g, D.depth⟩

/-- The score, from the leaves up. -/
def score (g : Grammar) : Derivation → Option Score
  | .leaf id _ => some (g.production id).logprob
  | .unary id c => (c.score g).bind fun x => Score.extend (g.production id).logprob x
  | .binary id l r =>
    (l.score g).bind fun x => (r.score g).bind fun y =>
      Score.combine (g.production id).logprob x y

/-- A derivation of a task, with runs of unary productions up to a length. -/
def Obeys (t : Task) (chain : Nat) : Derivation → Prop
  | .leaf id i =>
    i < t.sentence.size ∧ id < t.grammar.numProductions ∧
      (t.sentence.token? i).map .lexical = some (t.grammar.production id).expansion
  | .unary id c =>
    c.Obeys t chain ∧ c.depth < chain ∧ id < t.grammar.numProductions ∧
      (t.grammar.production id).expansion = .unary (c.symbol t.grammar) ∧
      t.limits.unaryOpen c.start c.stop = true ∧
      t.limits.allows t.grammar c.start c.stop (t.grammar.production id).parent = true
  | .binary id l r =>
    l.Obeys t chain ∧ r.Obeys t chain ∧ l.stop = r.start ∧ id < t.grammar.numProductions ∧
      (t.grammar.production id).expansion = .binary (l.symbol t.grammar) (r.symbol t.grammar) ∧
      t.limits.isOpen l.start r.stop = true ∧
      (t.limits.splits l.start r.stop).contains l.stop = true ∧
      t.limits.allows t.grammar l.start r.stop (t.grammar.production id).parent = true

instance decidableObeys (t : Task) (chain : Nat) : (D : Derivation) → Decidable (D.Obeys t chain)
  | .leaf _ _ => inferInstanceAs (Decidable (_ ∧ _ ∧ _))
  | .unary _ c =>
    have := decidableObeys t chain c
    inferInstanceAs (Decidable (_ ∧ _ ∧ _ ∧ _ ∧ _ ∧ _))
  | .binary _ l r =>
    have := decidableObeys t chain l
    have := decidableObeys t chain r
    inferInstanceAs (Decidable (_ ∧ _ ∧ _ ∧ _ ∧ _ ∧ _ ∧ _ ∧ _))

/-! ## Shape -/

variable {t : Task} {chain : Nat}

theorem isSpan_of_obeys {D : Derivation} (h : D.Obeys t chain) :
    IsSpan t.sentence.size D.start D.stop := by
  induction D with
  | leaf id i => exact ⟨Nat.lt_succ_self i, h.1⟩
  | unary id c ih => exact ih h.1
  | binary id l r ihl ihr =>
      obtain ⟨hl, hr, hmeet, -⟩ := h
      obtain ⟨hll, -⟩ := ihl hl
      obtain ⟨hrl, hrn⟩ := ihr hr
      change IsSpan t.sentence.size l.start r.stop
      exact ⟨by omega, hrn⟩

/-- The leaves are the words of the span, in order. -/
theorem positions_of_obeys {D : Derivation} (h : D.Obeys t chain) :
    D.positions = List.range' D.start (D.stop - D.start) := by
  induction D with
  | leaf id i => simp [positions, start, stop]
  | unary id c ih => exact ih h.1
  | binary id l r ihl ihr =>
      obtain ⟨hl, hr, hmeet, -⟩ := h
      obtain ⟨hll, -⟩ := isSpan_of_obeys hl
      obtain ⟨hrl, -⟩ := isSpan_of_obeys hr
      change l.positions ++ r.positions = List.range' l.start (r.stop - l.start)
      have hjoin := List.range'_append_1 (s := l.start) (m := l.stop - l.start)
        (n := r.stop - l.stop)
      rw [show l.start + (l.stop - l.start) = l.stop by omega,
        show l.stop - l.start + (r.stop - l.stop) = r.stop - l.start by omega] at hjoin
      rw [ihl hl, ihr hr, ← hmeet]
      exact hjoin

/-- The words of a derivation tell its span. -/
theorem positions_eq_range'_iff {D : Derivation} (h : D.Obeys t chain) {start stop : Nat}
    (hlt : start < stop) :
    D.positions = List.range' start (stop - start) ↔ D.start = start ∧ D.stop = stop := by
  obtain ⟨hspan, -⟩ := isSpan_of_obeys h
  rw [positions_of_obeys h]
  constructor
  · intro heq
    have hlen := congrArg List.length heq
    rw [List.length_range', List.length_range'] at hlen
    have hhead := congrArg List.head? heq
    rw [show D.stop - D.start = (D.stop - D.start - 1) + 1 by omega,
      show stop - start = (stop - start - 1) + 1 by omega, List.range'_succ, List.range'_succ,
      List.head?_cons, List.head?_cons, Option.some.injEq] at hhead
    omega
  · rintro ⟨rfl, rfl⟩
    rfl

theorem production_lt_of_obeys {D : Derivation} (h : D.Obeys t chain) :
    D.production < t.grammar.numProductions := by
  cases D with
  | leaf id i => exact h.2.1
  | unary id c => exact h.2.2.1
  | binary id l r => exact h.2.2.2.1

theorem symbol_lt_of_obeys (hg : t.grammar.WellFormed) {D : Derivation} (h : D.Obeys t chain) :
    D.symbol t.grammar < t.grammar.numNonterminals :=
  hg.parent_lt _ (production_lt_of_obeys h)

theorem depth_le_of_obeys {D : Derivation} (h : D.Obeys t chain) : D.depth ≤ chain := by
  cases D with
  | leaf id i => exact Nat.zero_le _
  | unary id c => exact h.2.1
  | binary id l r => exact Nat.zero_le _

/-- A derivation over two words or more has a binary production in its span. -/
theorem isOpen_of_obeys {D : Derivation} (h : D.Obeys t chain) (hwide : D.start + 2 ≤ D.stop) :
    t.limits.isOpen D.start D.stop = true := by
  induction D with
  | leaf id i =>
      change i + 2 ≤ i + 1 at hwide
      omega
  | unary id c ih => exact ih h.1 hwide
  | binary id l r ihl ihr => exact h.2.2.2.2.2.1

/-! ## Scores -/

theorem score_unary_eq_some {g : Grammar} {id : ProductionId} {c : Derivation} {x : Score} :
    (unary id c).score g = some x ↔
      ∃ y, c.score g = some y ∧ Score.extend (g.production id).logprob y = some x := by
  rw [score, Option.bind_eq_some_iff]

theorem score_binary_eq_some {g : Grammar} {id : ProductionId} {l r : Derivation} {x : Score} :
    (binary id l r).score g = some x ↔
      ∃ y z, l.score g = some y ∧ r.score g = some z ∧
        Score.combine (g.production id).logprob y z = some x := by
  simp only [score, Option.bind_eq_some_iff]
  constructor
  · rintro ⟨y, hy, z, hz, hx⟩
    exact ⟨y, z, hy, hz, hx⟩
  · rintro ⟨y, z, hy, hz, hx⟩
    exact ⟨y, hy, z, hz, hx⟩

theorem score_ne_nan (hg : t.grammar.WellFormed) {D : Derivation} (h : D.Obeys t chain) {x : Score}
    (hx : D.score t.grammar = some x) : x ≠ .nan := by
  have hfin := hg.finite _ (production_lt_of_obeys h)
  cases D with
  | leaf id i =>
      cases hx
      exact (Score.isReachable_iff.1 (Score.isReachable_of_isFinite hfin)).1
  | unary id c =>
      obtain ⟨y, -, hxy⟩ := score_unary_eq_some.1 hx
      exact Score.extend_ne_nan hfin hxy
  | binary id l r =>
      obtain ⟨y, z, -, -, hxyz⟩ := score_binary_eq_some.1 hx
      exact Score.combine_ne_nan hfin hxyz

/-- With probabilities at most one, no derivation scores above zero. -/
theorem score_le_zero (hg : t.grammar.WellFormed) (hneg : t.grammar.Discounting)
    {D : Derivation} (h : D.Obeys t chain) {x : Score} (hx : D.score t.grammar = some x) :
    x.rank ≤ 0 := by
  have hid := production_lt_of_obeys h
  induction D generalizing x with
  | leaf id i =>
      cases hx
      exact hneg id hid
  | unary id c ih =>
      obtain ⟨y, hy, hxy⟩ := score_unary_eq_some.1 hx
      have hyle := ih h.1 hy (production_lt_of_obeys h.1)
      exact Int.le_trans (Score.extend_le (hg.finite id hid) (hneg id hid) hxy) hyle
  | binary id l r ihl ihr =>
      obtain ⟨y, z, hy, hz, hxyz⟩ := score_binary_eq_some.1 hx
      have hyle := ihl h.1 hy (production_lt_of_obeys h.1)
      have hzle := ihr h.2.1 hz (production_lt_of_obeys h.2.1)
      have hle := Score.combine_le (hg.finite id hid) (hneg id hid) hyle hzle hxyz
      exact Int.le_trans hle.1 hyle

end Derivation

/-! ## The best of some derivations -/

/-- A score is the greatest among some derivations: none scores better, and it is
unreachable or the score of one of them. -/
structure IsBestScore (g : Grammar) (among : Derivation → Prop) (best : Score) : Prop where
  upper : ∀ D x, among D → D.score g = some x → x.isAtMost best = true
  attained : best.isReachable = true → ∃ D, among D ∧ D.score g = some best
  unreachable : (∀ D x, among D → D.score g = some x → x.isReachable = false) →
    best = .unreachable

theorem IsBestScore.congr {g : Grammar} {among among' : Derivation → Prop} {best : Score}
    (h : IsBestScore g among best) (hiff : ∀ D, among D ↔ among' D) :
    IsBestScore g among' best where
  upper D x hD := h.upper D x ((hiff D).2 hD)
  attained hreach := by
    obtain ⟨D, hD, hscore⟩ := h.attained hreach
    exact ⟨D, (hiff D).1 hD, hscore⟩
  unreachable hnone := h.unreachable fun D x hD => hnone D x ((hiff D).1 hD)

/-- The task of parsing two words with a grammar whose unary productions go in a circle. -/
def circularTask : Task where
  grammar := circularGrammar
  sentence := .ofWords circularGrammar #["a", "a"]

end BestParse
