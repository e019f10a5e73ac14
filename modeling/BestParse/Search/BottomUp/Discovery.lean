import BestParse.Search.BottomUp.Cell
import BestParse.Search.BottomUp.Extents

/-!
# Discovery of binary edges

Four ways to find the binary edges over a span.  Each lists proposals: a
production, a split point and the scores of the two children.  The children lie
over narrower spans, which no longer change, so the list is known before the
first proposal is offered.

* `productions` tries every binary production at every split point;
* `leftLists` walks the populated left children and looks productions up by them;
* `pairs` keeps the best split point of every pair of populated children, and
  proposes the productions of the pair there;
* `extents` tries every binary production at the split points its extents leave.

The best scores are the same for all; only ties may fall to different edges.
-/

namespace BestParse

/-- How binary edges are found. -/
inductive Discovery where
  | productions
  | leftLists
  | pairs
  | extents
deriving DecidableEq

namespace BottomUp

/-- A binary production at a split point, with the scores of its children. -/
structure Proposal where
  production : ProductionId
  mid : Nat
  left : Score
  right : Score
deriving DecidableEq

/-- The proposal of a production at a split point, if its left child is reachable. -/
def proposalAt (g : Grammar) (c : Chart) (start stop : Nat) (id : ProductionId) (mid : Nat) :
    Option Proposal :=
  match (g.production id).expansion with
  | .binary l r =>
    let left := c.inside start mid l
    if left.isReachable then some ⟨id, mid, left, c.inside mid stop r⟩ else none
  | _ => none

/-- Every binary production at every split point. -/
def proposalsByProductions (g : Grammar) (limits : Limits) (c : Chart) (start stop : Nat) :
    List Proposal :=
  (limits.splits start stop).positions.flatMap fun mid =>
    g.allBinary.filterMap fun id => proposalAt g c start stop id mid

/-- The productions of populated left children whose right child is reachable. -/
def proposalsByLeftLists (g : Grammar) (limits : Limits) (c : Chart) (start stop : Nat) :
    List Proposal :=
  (limits.splits start stop).positions.flatMap fun mid =>
    (c.leftChildren start mid).flatMap fun l =>
      (g.binaryWithLeft l).filterMap fun id =>
        match (g.production id).expansion with
        | .binary _ r =>
          let right := c.inside mid stop r
          if right.isReachable then some ⟨id, mid, c.inside start mid l, right⟩ else none
        | _ => none

/-- The pairs of populated children at a split point that some production joins. -/
def pairsAt (g : Grammar) (c : Chart) (start mid stop : Nat) : List (NonTerminal × NonTerminal) :=
  (c.leftChildren start mid).flatMap fun l =>
    (c.rightChildren mid stop).filterMap fun r =>
      if (g.binaryWithPair l r).isEmpty then none else some (l, r)

/-- Take up a pair at a split point.  The earliest split point wins ties. -/
def keepBestSplit (c : Chart) (start mid stop : Nat) (best : PairMap (Score × Nat))
    (pair : NonTerminal × NonTerminal) : PairMap (Score × Nat) :=
  let sum := c.inside start mid pair.1 + c.inside mid stop pair.2
  let held := best.getD pair (.unreachable, mid)
  best.insert pair (if sum.improves held.1 then (sum, mid) else held)

/-- The best split point of every pair of populated children. -/
def bestSplits (g : Grammar) (limits : Limits) (c : Chart) (start stop : Nat) :
    PairMap (Score × Nat) :=
  (limits.splits start stop).positions.foldl
    (fun best mid => (pairsAt g c start mid stop).foldl (keepBestSplit c start mid stop) best) ∅

/-- The productions of every pair of populated children, at the pair's best split
point. -/
def proposalsByPairs (g : Grammar) (limits : Limits) (c : Chart) (start stop : Nat) :
    List Proposal :=
  (bestSplits g limits c start stop).toList.flatMap fun ((l, r), (_, mid)) =>
    (g.binaryWithPair l r).map fun id => ⟨id, mid, c.inside start mid l, c.inside mid stop r⟩

/-- The feasible split points of a binary production. -/
def feasibleSplits (g : Grammar) (x : Extents) (start stop : Nat) (id : ProductionId) :
    Option (Nat × Nat) :=
  match (g.production id).expansion with
  | .binary l r => x.feasible l r start stop
  | _ => none

/-- Every binary production at the allowed split points that its extents leave. -/
def proposalsByExtents (g : Grammar) (limits : Limits) (c : Chart) (x : Extents)
    (start stop : Nat) : List Proposal :=
  let allowed := limits.splits start stop
  if allowed.isEmpty then []
  else
    g.allBinary.flatMap fun id =>
      match feasibleSplits g x start stop id with
      | none => []
      | some (low, high) =>
        let range : Interval := ⟨max low allowed.first, min high (allowed.stop - 1) + 1⟩
        range.positions.filterMap fun mid => proposalAt g c start stop id mid

/-- How many binary productions the extents rule out over a span. -/
def infeasibleCount (g : Grammar) (limits : Limits) (x : Extents) (start stop : Nat) : Nat :=
  if (limits.splits start stop).isEmpty then 0
  else (g.allBinary.filter fun id => (feasibleSplits g x start stop id).isNone).length

/-- The proposals over a span. -/
def proposals (g : Grammar) (limits : Limits) (c : Chart) (x : Extents) (start stop : Nat) :
    Discovery → List Proposal
  | .productions => proposalsByProductions g limits c start stop
  | .leftLists => proposalsByLeftLists g limits c start stop
  | .pairs => proposalsByPairs g limits c start stop
  | .extents => proposalsByExtents g limits c x start stop

/-- Offer the proposals over a span in turn. -/
def Progress.fill (g : Grammar) (limits : Limits) (p : Progress) (start stop : Nat)
    (list : List Proposal) : Progress :=
  list.foldl
    (fun p q => (p.offerBinary g limits q.production start q.mid stop q.left q.right).2) p

end BottomUp
end BestParse
