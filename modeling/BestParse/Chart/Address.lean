/-!
# Addresses in a chart

The chart of a sentence of `n` words has one cell per span `start < stop ≤ n`,
one slot per cell and nonterminal, and one layer per slot and unary depth.
Cells, slots and layers live in flat arrays.  Cells of the same start stand
together, in the order of their stops.
-/

namespace BestParse
namespace Address

/-- How many spans a sentence of `n` words has. -/
def cells (n : Nat) : Nat := n * (n + 1) / 2

/-- The place of a span among all spans. -/
def cell (n start stop : Nat) : Nat := start * (2 * n - start + 1) / 2 + (stop - start - 1)

/-- The place of a nonterminal's slot, with `symbols` slots to a cell. -/
def slot (n symbols start stop symbol : Nat) : Nat := cell n start stop * symbols + symbol

/-- The place of a layer, with `layers` layers to a slot. -/
def layer (layers slot layer : Nat) : Nat := slot * layers + layer

end Address

/-- The spans of a sentence of `n` words. -/
def IsSpan (n start stop : Nat) : Prop := start < stop ∧ stop ≤ n

instance (n start stop : Nat) : Decidable (IsSpan n start stop) :=
  inferInstanceAs (Decidable (_ ∧ _))

end BestParse
