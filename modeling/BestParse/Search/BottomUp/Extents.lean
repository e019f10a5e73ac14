import BestParse.Chart.Basic

/-!
# Extents of nonterminals

For every nonterminal and position, the extents remember how far the finished
spans reach over which the nonterminal is populated: the nearest and the furthest
stop of those that start at the position, and the nearest and the furthest start
of those that stop at it.  Where there is none, they hold numbers beyond the
sentence that no split point passes.

A binary production over a span needs its left child up to the split point and
its right child from there on, so the extents bound its split points.
-/

namespace BestParse

/-- How far finished spans reach, by nonterminal and position. -/
structure Extents where
  /-- How many positions a nonterminal has. -/
  stride : Nat := 0
  /-- The nearest stop of a span from a position. -/
  nearStop : Array Int := #[]
  /-- The furthest stop of a span from a position. -/
  farStop : Array Int := #[]
  /-- The nearest start of a span to a position. -/
  nearStart : Array Int := #[]
  /-- The furthest start of a span to a position. -/
  farStart : Array Int := #[]
  /-- How many productions were passed over without looking at the chart. -/
  skipped : Nat := 0

namespace Extents

/-- The extents of a sentence of `n` words before any span is finished. -/
def start (symbols n : Nat) : Extents where
  stride := n + 1
  nearStop := Array.replicate (symbols * (n + 1)) (n + 1 : Nat)
  farStop := Array.replicate (symbols * (n + 1)) (-1)
  nearStart := Array.replicate (symbols * (n + 1)) (-1)
  farStart := Array.replicate (symbols * (n + 1)) (n + 1 : Nat)

/-- The place of a nonterminal and a position in the tables. -/
def place (x : Extents) (nt : NonTerminal) (position : Nat) : Nat := nt * x.stride + position

/-- The first and the last split point that can join two children over a span; none
if no point can. -/
def feasible (x : Extents) (left right : NonTerminal) (start stop : Nat) : Option (Nat × Nat) :=
  let l := x.place left start
  let r := x.place right stop
  let low := max (x.nearStop.getD l 0) (x.farStart.getD r 0)
  let high := min (x.farStop.getD l 0) (x.nearStart.getD r 0)
  if high < low then none else some (low.toNat, high.toNat)

/-- Take up one nonterminal over a finished span. -/
def extend (x : Extents) (start stop : Nat) (nt : NonTerminal) : Extents :=
  let l := x.place nt start
  let r := x.place nt stop
  { x with
    nearStop := x.nearStop.modify l (min · (stop : Int))
    farStop := x.farStop.modify l (max · (stop : Int))
    nearStart := x.nearStart.modify r (max · (start : Int))
    farStart := x.farStart.modify r (min · (start : Int)) }

/-- Take up a finished span. -/
def finish (x : Extents) (c : Chart) (start stop : Nat) : Extents :=
  (c.populated start stop).foldl (fun x nt => x.extend start stop nt) x

end Extents

end BestParse
