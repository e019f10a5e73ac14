import BestParse.Chart.Basic

/-!
# Views of a chart

What a chart holds, cell by cell and slot by slot, for inspection.  A view of
something outside the chart does not exist.
-/

namespace BestParse

/-- What a chart holds in one slot. -/
structure SlotView where
  symbol : NonTerminal
  isPopulated : Bool
  /-- The score of the best layer. -/
  inside : Score
  /-- The figure of merit of the best layer. -/
  fom : Score
  /-- The best layer. -/
  depth : Nat
  /-- The edge of the best layer. -/
  edge : Option Edge
  /-- All layers, from zero on. -/
  layers : List Layer

/-- What a chart holds over one span. -/
structure CellView where
  start : Nat
  stop : Nat
  /-- The place of the cell among all cells. -/
  index : Nat
  /-- The populated nonterminals, in the order of their first commit. -/
  populated : List NonTerminal
  /-- Those that can be a left child. -/
  left : List NonTerminal
  /-- Those that can be a right child. -/
  right : List NonTerminal
  /-- The populated slots, by nonterminal. -/
  slots : List SlotView

namespace Chart

/-- The view of a slot. -/
def viewSlot (c : Chart) (start stop : Nat) (nt : NonTerminal) : SlotView where
  symbol := nt
  isPopulated := c.isPopulated start stop nt
  inside := c.inside start stop nt
  fom := c.fom start stop nt
  depth := c.unaryDepth start stop nt
  edge := c.edge start stop nt
  layers := (List.range (c.maxChain + 1)).map (c.layer start stop nt)

/-- The view of a cell. -/
def viewCell (c : Chart) (start stop : Nat) : CellView where
  start := start
  stop := stop
  index := c.cellIndex start stop
  populated := c.populated start stop
  left := c.leftChildren start stop
  right := c.rightChildren start stop
  slots := (c.sortedPopulated start stop).map (c.viewSlot start stop)

/-- The views of all cells with a populated nonterminal, by start and then by stop. -/
def viewPopulated (c : Chart) : List CellView :=
  (c.spans.map fun (start, stop) => c.viewCell start stop).filter fun view =>
    !view.populated.isEmpty

/-- The view of a slot of the chart. -/
def slotView? (c : Chart) (start stop : Nat) (nt : NonTerminal) : Option SlotView :=
  if IsSpan c.size start stop then some (c.viewSlot start stop nt) else none

/-- The view of a cell of the chart. -/
def cellView? (c : Chart) (start stop : Nat) : Option CellView :=
  if IsSpan c.size start stop then some (c.viewCell start stop) else none

/-- A layer of the chart. -/
def layer? (c : Chart) (start stop : Nat) (nt : NonTerminal) (d : Nat) : Option Layer :=
  if IsSpan c.size start stop ∧ d ≤ c.maxChain then some (c.layer start stop nt d) else none

/-- The place of a cell of the chart. -/
def cellIndex? (c : Chart) (start stop : Nat) : Option Nat :=
  if IsSpan c.size start stop then some (c.cellIndex start stop) else none

end Chart

end BestParse
