import BestParse.Search.BottomUp.Cell
import BestParse.Chart.View

/-!
# Filling a chart by hand

The operations that fill a chart, one at a time.  An operation outside the chart
is refused and leaves the chart as it is.
-/

namespace BestParse
namespace BottomUp
namespace Progress

/-- Seed the word at a position; the nonterminals populated are returned. -/
def seed? (t : Task) (p : Progress) (i : Nat) : Option (Array NonTerminal × Progress) :=
  if i < t.sentence.size then
    let (seeded, chart) := p.chart.seed t.grammar (t.sentence.token? i) i
    some (seeded, { p with chart })
  else none

/-- Commit an edge, whether it is an improvement or not. -/
def commit? (g : Grammar) (p : Progress) (e : Edge) : Option (Effect × Progress) :=
  if IsSpan p.chart.size e.start e.stop ∧ e.layer ≤ p.chart.maxChain then
    let (effect, chart) := p.chart.commit g e
    some (effect, { p with chart })
  else none

/-- Offer a binary production over two children with the scores given.  Unreachable
children are declined before the span is looked at; otherwise the edge counts as
made even if the offer is refused. -/
def offerBinary? (t : Task) (p : Progress) (id : ProductionId) (start mid stop : Nat)
    (left right : Score) : Option Bool × Progress :=
  if id < t.grammar.numProductions then
    let reachable := (Score.combine (t.grammar.production id).logprob left right).isSome
    if reachable ∧ ¬ IsSpan p.chart.size start stop then
      (none, { p with work := { p.work with built := p.work.built + 1 } })
    else
      let (committed, p) := p.offerBinary t.grammar t.limits id start mid stop left right
      (some committed, p)
  else (none, p)

/-- The unary passes over a span, and the cell they leave. -/
def unaryPasses? (t : Task) (p : Progress) (start stop : Nat) : Option (CellView × Progress) :=
  if IsSpan p.chart.size start stop then
    let p := p.unaryPasses t.grammar t.limits start stop
    some (p.chart.viewCell start stop, p)
  else none

end Progress
end BottomUp
end BestParse
