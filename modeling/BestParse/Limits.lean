import BestParse.Grammar.Basic

/-!
# Limits on spans

Limits say, span by span, what a search may build: no binary edges, only factored
parents, no unary productions, and only children up to some width.  A search
skips what they forbid.  Words are always seeded, whatever the limits say.

Split points are computed in machine words of sixty-four bits.  `splitsFit` says
whether the computation stays inside them.
-/

namespace BestParse

/-- A half-open range of positions. -/
structure Interval where
  /-- The first position. -/
  first : Nat
  /-- The position after the last. -/
  stop : Nat
deriving DecidableEq

namespace Interval

/-- The positions of an interval, in ascending order. -/
def positions (r : Interval) : List Nat := List.range' r.first (r.stop - r.first)

/-- Whether a position lies in an interval. -/
def contains (r : Interval) (i : Nat) : Bool := r.first ≤ i && i < r.stop

/-- Whether an interval has no positions. -/
def isEmpty (r : Interval) : Bool := r.stop ≤ r.first

@[simp] theorem mem_positions {r : Interval} {i : Nat} : i ∈ r.positions ↔ r.contains i = true := by
  simp [positions, contains, List.mem_range'_1]
  omega

end Interval

/-- What may be built over which spans. -/
structure Limits where
  /-- Spans without binary edges. -/
  closed : List (Nat × Nat) := []
  /-- Spans whose parents must be factored. -/
  factoredOnly : List (Nat × Nat) := []
  /-- Spans without unary productions. -/
  noUnary : List (Nat × Nat) := []
  /-- The greatest width of a child of a binary edge. -/
  maxChildWidth : Option Nat := none

namespace Limits

/-- Nothing is forbidden. -/
def none : Limits := {}

/-- Limit the children of binary edges to a width, which is at least one word. -/
def withMaxChildWidth (l : Limits) (width : Nat) : Limits :=
  { l with maxChildWidth := some (max width 1) }

/-- The split points of binary edges over a span. -/
def splits (l : Limits) (start stop : Nat) : Interval :=
  match l.maxChildWidth with
  | .none => ⟨start + 1, stop⟩
  | some width =>
    let low := max (start + 1) (stop - width)
    let high := min stop (start + width + 1)
    ⟨low, max high low⟩

/-- Whether the split points of a span are computed without leaving sixty-four
bits. -/
def splitsFit (l : Limits) (start _stop : Nat) : Bool :=
  match l.maxChildWidth with
  | .none => start + 1 < UInt64.size
  | some width => start + width + 1 < UInt64.size

/-- Whether binary edges may be built over a span. -/
def isOpen (l : Limits) (start stop : Nat) : Bool := !l.closed.contains (start, stop)

/-- Whether only factored parents may stand over a span. -/
def onlyFactored (l : Limits) (start stop : Nat) : Bool := l.factoredOnly.contains (start, stop)

/-- Whether unary productions may be applied over a span. -/
def unaryOpen (l : Limits) (start stop : Nat) : Bool := !l.noUnary.contains (start, stop)

/-- Whether a parent may stand over a span. -/
def allows (l : Limits) (g : Grammar) (start stop : Nat) (parent : NonTerminal) : Bool :=
  !l.onlyFactored start stop || g.isFactored parent

end Limits

end BestParse
