import BestParse.Search.Buffer
import BestParse.Search.BottomUp.Basic

/-!
# Bottom-up search with its buffers

A discovery works with buffers, which it keeps from one span to the next and from one sentence
to the next.  They are emptied in different places:

* the extents, before every sentence;
* the best split points of pairs, before every span;
* the lists of children, before every split point.

A `Filler` is a discovery with its buffers, and a `Working` search works with them.  A `Desk` is a
parser that keeps them for the next sentence.
-/

namespace BestParse

/-- Start extents anew for a sentence of `n` words, in the arrays they have. -/
def Extents.restart (x : Extents) (symbols n : Nat) : Extents where
  stride := n + 1
  nearStop := resize (x.nearStop.take 0) (symbols * (n + 1)) (n + 1 : Nat)
  farStop := resize (x.farStop.take 0) (symbols * (n + 1)) (-1)
  nearStart := resize (x.nearStart.take 0) (symbols * (n + 1)) (-1)
  farStart := resize (x.farStart.take 0) (symbols * (n + 1)) (n + 1 : Nat)
  skipped := 0

namespace BottomUp

/-- A discovery with its buffers, as they were last left. -/
inductive Filler where
  | productions
  | leftLists (lefts : List NonTerminal)
  | pairs (best : PairMap (Score × Nat)) (lefts rights : List NonTerminal)
  | extents (x : Extents)

/-! ## Discovery with buffers -/

/-- The proposals of a left child at a split point. -/
def proposalsOfLeft (g : Grammar) (c : Chart) (start mid stop : Nat) (l : NonTerminal) :
    List Proposal :=
  (g.binaryWithLeft l).filterMap fun id =>
    match (g.production id).expansion with
    | .binary _ r =>
      let right := c.inside mid stop r
      if right.isReachable then some ⟨id, mid, c.inside start mid l, right⟩ else none
    | _ => none

/-- The pairs of listed children that some production joins. -/
def pairsOf (g : Grammar) (lefts rights : List NonTerminal) : List (NonTerminal × NonTerminal) :=
  lefts.flatMap fun l =>
    rights.filterMap fun r => if (g.binaryWithPair l r).isEmpty then none else some (l, r)

/-- List the left children at every split point, and collect the proposals of each. -/
def collectLefts (g : Grammar) (limits : Limits) (c : Chart) (start stop : Nat)
    (lefts : List NonTerminal) : List Proposal × List NonTerminal :=
  (limits.splits start stop).positions.foldl
    (fun (list, lefts) mid =>
      let lefts := refill lefts (c.leftChildren start mid)
      (list ++ lefts.flatMap (proposalsOfLeft g c start mid stop), lefts))
    ([], lefts)

/-- List the children at every split point, and take up their pairs. -/
def collectPairs (g : Grammar) (limits : Limits) (c : Chart) (start stop : Nat)
    (best : PairMap (Score × Nat)) (lefts rights : List NonTerminal) :
    PairMap (Score × Nat) × List NonTerminal × List NonTerminal :=
  (limits.splits start stop).positions.foldl
    (fun (best, lefts, rights) mid =>
      let lefts := refill lefts (c.leftChildren start mid)
      let rights := refill rights (c.rightChildren mid stop)
      ((pairsOf g lefts rights).foldl (keepBestSplit c start mid stop) best, lefts, rights))
    (best, lefts, rights)

namespace Filler

/-- The discovery of a filler. -/
def discovery : Filler → Discovery
  | .productions => .productions
  | .leftLists _ => .leftLists
  | .pairs _ _ _ => .pairs
  | .extents _ => .extents

/-- The filler of a discovery, with empty lists and the extents given. -/
def ofDiscovery (x : Extents) : Discovery → Filler
  | .productions => .productions
  | .leftLists => .leftLists []
  | .pairs => .pairs ∅ [] []
  | .extents => .extents x

/-- Prepare for a sentence. -/
def reset (symbols n : Nat) : Filler → Filler
  | .extents x => .extents (x.restart symbols n)
  | f => f

/-- Find the proposals over a span. -/
def propose (g : Grammar) (limits : Limits) (c : Chart) (start stop : Nat) :
    Filler → List Proposal × Filler
  | .productions => (proposalsByProductions g limits c start stop, .productions)
  | .leftLists lefts =>
    let (list, lefts) := collectLefts g limits c start stop lefts
    (list, .leftLists lefts)
  | .pairs _ lefts rights =>
    let (best, lefts, rights) := collectPairs g limits c start stop ∅ lefts rights
    (best.toList.flatMap fun ((l, r), (_, mid)) =>
        (g.binaryWithPair l r).map fun id => ⟨id, mid, c.inside start mid l, c.inside mid stop r⟩,
      .pairs best lefts rights)
  | .extents x =>
    (proposalsByExtents g limits c x start stop,
      .extents { x with skipped := x.skipped + infeasibleCount g limits x start stop })

/-- Take up a finished cell. -/
def finish (c : Chart) (start stop : Nat) : Filler → Filler
  | .extents x => .extents (x.finish c start stop)
  | f => f

end Filler

/-! ## The search -/

/-- A bottom-up search under way, with its buffers. -/
structure Working where
  progress : Progress
  filler : Filler
  faulty : Bool := false

namespace Working

/-- Take up a finished cell in the buffers. -/
def finishCell (w : Working) (start stop : Nat) : Working :=
  { w with filler := w.filler.finish w.progress.chart start stop }

/-- Fill the cell of the word at a position. -/
def fillWord (t : Task) (w : Working) (i : Nat) : Working :=
  let ⟨⟨chart, work⟩, filler, faulty⟩ := w
  let (seeded, chart) := chart.seed t.grammar (t.sentence.token? i) i
  let work := { work with committed := work.committed + seeded.size }
  let progress := Progress.unaryPasses t.grammar t.limits ⟨chart, work⟩ i (i + 1)
  finishCell ⟨progress, filler, faulty⟩ i (i + 1)

/-- Find and offer the edges of an open cell. -/
def fillOpen (t : Task) (w : Working) (start stop : Nat) : Working :=
  let ⟨progress, filler, faulty⟩ := w
  let (list, filler) := filler.propose t.grammar t.limits progress.chart start stop
  let progress := progress.fill t.grammar t.limits start stop list
  let progress := progress.unaryPasses t.grammar t.limits start stop
  ⟨progress, filler, faulty || !t.limits.splitsFit start stop⟩

/-- Fill the cell of a span of two words or more. -/
def fillSpan (t : Task) (w : Working) (start stop : Nat) : Working :=
  let w := if t.limits.isOpen start stop then w.fillOpen t start stop else w
  w.finishCell start stop

/-- Fill all cells. -/
def run (t : Task) (w : Working) : Working :=
  let n := t.sentence.size
  let w := (List.range n).foldl (fun w i => w.fillWord t i) w
  (widerSpans n).foldl (fun w (start, stop) => w.fillSpan t start stop) w

end Working

/-! ## Parsers that keep their buffers -/

/-- A bottom-up parser with its buffers. -/
structure Desk where
  filler : Filler
  /-- The longest run of unary productions over a span. -/
  maxChain : Nat

/-- A parser with new buffers. -/
def desk (b : BottomUp) : Desk where
  filler := .ofDiscovery b.extents b.discovery
  maxChain := b.maxChain

/-- Parse a sentence. -/
def Desk.parse (d : Desk) (t : Task) : Report × Desk :=
  let ⟨⟨chart, work⟩, filler, faulty⟩ := Working.run t
    { progress := ⟨Chart.empty t.grammar t.sentence.size d.maxChain, {}⟩
      filler := d.filler.reset t.grammar.numNonterminals t.sentence.size }
  let outcome := chart.outcome t.grammar
  ({ chart, outcome, work, faulty
     notices := #[.bottomUpEnded t.sentence.size work.built work.committed outcome] },
    { d with filler })

end BottomUp
end BestParse
