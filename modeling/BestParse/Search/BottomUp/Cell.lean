import BestParse.Search.Report

/-!
# Filling one cell

A cell is filled by offers.  An offered edge is counted, and committed when it is
better than the layer it aims at and its parent is allowed over the span.

The unary passes then close a cell under unary productions: pass `d` offers the
unary edges over layer `d - 1` to layer `d`, and the passes end early when one of
them commits nothing.  A pass reads only the layer below, so its edges are known
before it begins.
-/

namespace BestParse
namespace BottomUp

/-- A chart being filled, and the work done on it. -/
structure Progress where
  chart : Chart
  work : Work

namespace Progress

/-- Offer an edge; tells whether it was committed. -/
def offer (g : Grammar) (limits : Limits) (p : Progress) (e : Edge) : Bool × Progress :=
  let ⟨chart, work⟩ := p
  let work := { work with built := work.built + 1 }
  if chart.accepts e && limits.allows g e.start e.stop e.parent then
    (true, ⟨chart.store g e, { work with committed := work.committed + 1 }⟩)
  else (false, ⟨chart, work⟩)

/-- Offer a binary production over two children with the scores given.  Without a
score of its own it is not counted. -/
def offerBinary (g : Grammar) (limits : Limits) (p : Progress) (id : ProductionId)
    (start mid stop : Nat) (left right : Score) : Bool × Progress :=
  match Score.combine (g.production id).logprob left right with
  | none => (false, p)
  | some inside => p.offer g limits (Edge.binary g id start mid stop inside)

end Progress

/-! ## Unary passes -/

/-- The unary edges over one layer of a span. -/
def unaryEdges (g : Grammar) (c : Chart) (start stop layer : Nat) : List Edge :=
  (c.populated start stop).flatMap fun child =>
    (g.unaryWithChild child).filterMap fun id =>
      (Score.extend (g.production id).logprob (c.layerInside start stop child layer)).map
        (Edge.unary g id start stop (layer + 1))

namespace Progress

/-- Offer the unary edges over one layer; tells whether one was committed. -/
def unaryPass (g : Grammar) (limits : Limits) (p : Progress) (start stop layer : Nat) :
    Bool × Progress :=
  (unaryEdges g p.chart start stop layer).foldl
    (fun (changed, p) e =>
      let (committed, p) := p.offer g limits e
      (changed || committed, p))
    (false, p)

/-- At most so many unary passes, from a layer on. -/
def unaryPassesFrom (g : Grammar) (limits : Limits) (start stop : Nat) :
    (passes layer : Nat) → Progress → Progress
  | 0, _, p => p
  | passes + 1, layer, p =>
    let (changed, p) := p.unaryPass g limits start stop layer
    if changed then unaryPassesFrom g limits start stop passes (layer + 1) p else p

/-- The unary passes over a span, if it has any. -/
def unaryPasses (g : Grammar) (limits : Limits) (p : Progress) (start stop : Nat) : Progress :=
  if limits.unaryOpen start stop then
    unaryPassesFrom g limits start stop p.chart.maxChain 0 p
  else p

end Progress

end BottomUp
end BestParse
