import BestParse.Chart.Basic

/-!
# Trees

A tree is read back from a chart by following edges from the start symbol over
the whole sentence: a unary edge leads to the layer below over the same span,
and a binary edge to the best layers of its two children.

Reading a chart that was filled by hand can fail in two ways.  A layer without
an edge means that there is no tree.  An edge that points outside the chart,
extends a layer below zero or leads back to itself is a *broken* chart.
-/

namespace BestParse

/-! ## Trees as values -/

/-- A derivation tree. -/
inductive Tree where
  | leaf (label word : String)
  | node (label : String) (children : List Tree)

namespace Tree

/-- The label at the root. -/
def label : Tree → String
  | .leaf label _ => label
  | .node label _ => label

mutual

/-- The labels above the words, from left to right. -/
def tags : Tree → List String
  | .leaf label _ => [label]
  | .node _ children => tagsOfAll children

/-- The labels above the words of several trees. -/
def tagsOfAll : List Tree → List String
  | [] => []
  | t :: ts => t.tags ++ tagsOfAll ts

end

mutual

/-- The words, from left to right. -/
def words : Tree → List String
  | .leaf _ word => [word]
  | .node _ children => wordsOfAll children

/-- The words of several trees. -/
def wordsOfAll : List Tree → List String
  | [] => []
  | t :: ts => t.words ++ wordsOfAll ts

end

mutual

/-- The tree in brackets. -/
def text : Tree → String
  | .leaf label word => "(" ++ label ++ " " ++ word ++ ")"
  | .node label children => "(" ++ label ++ textOfAll children ++ ")"

/-- Several trees in brackets, with a space before each. -/
def textOfAll : List Tree → String
  | [] => ""
  | t :: ts => " " ++ t.text ++ textOfAll ts

end

end Tree

/-! ## Reading trees from charts -/

/-- The outcome of following edges: a tree, a layer without an edge, or an edge that
leads out of the chart or round in a circle. -/
inductive Traced where
  | tree (t : Tree)
  | missing
  | broken

namespace Chart

/-- How many layers a chart has in all.  No path of edges that never returns to a
layer is longer. -/
def numLayers (c : Chart) : Nat := c.layers.size

/-- Follow the edge of one layer down to the words, for at most so many steps. -/
def trace (g : Grammar) (c : Chart) (s : Sentence) :
    (steps : Nat) → (start stop : Nat) → NonTerminal → (layer : Nat) → Traced
  | 0, _, _, _, _ => .broken
  | steps + 1, start, stop, nt, layer =>
    match c.layerEdge start stop nt layer with
    | none => .missing
    | some e =>
      let label := g.nonterminalName nt
      match e.left, e.right with
      | some l, some r =>
        if ¬ IsSpan c.size start e.mid then .broken
        else
          match c.trace g s steps start e.mid l (c.unaryDepth start e.mid l) with
          | .tree left =>
            if ¬ IsSpan c.size e.mid stop then .broken
            else
              match c.trace g s steps e.mid stop r (c.unaryDepth e.mid stop r) with
              | .tree right => .tree (.node label [left, right])
              | other => other
          | other => other
      | some l, none =>
        match layer with
        | 0 => .broken
        | below + 1 =>
          match c.trace g s steps start stop l below with
          | .tree child => .tree (.node label [child])
          | other => other
      | none, _ => .tree (.leaf label (s.word start))

/-- Follow the best edges from the start symbol over the whole sentence. -/
def traceRoot (g : Grammar) (c : Chart) (s : Sentence) : Traced :=
  if c.isComplete g then
    c.trace g s (c.numLayers + 1) 0 c.size g.start (c.unaryDepth 0 c.size g.start)
  else .missing

/-- The best tree of a sentence, if there is one. -/
def tree? (g : Grammar) (c : Chart) (s : Sentence) : Option Tree :=
  match c.traceRoot g s with
  | .tree t => some t
  | _ => none

end Chart

end BestParse
