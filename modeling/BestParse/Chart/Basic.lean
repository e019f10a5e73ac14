import BestParse.Chart.Address
import BestParse.Chart.Edge
import BestParse.Sentence

/-!
# Charts

A chart holds the best derivations found so far, one per layer of each slot.
A slot's score is the score of its best layer.  Binary edges read slot scores;
unary edges read the one layer they extend, so an edge names the derivation its
score was built from.

Each cell lists the nonterminals populated in it, and those of them that can be
a left or a right child, in the order in which they were first committed.

`Chart.commit` is the only operation that changes a chart.  It stores an edge
without asking whether the edge is an improvement; that is for its callers.
-/

namespace BestParse

/-! ## Parts of a chart -/

/-- The best derivation of one layer. -/
structure Layer where
  inside : Score := .unreachable
  fom : Score := .unreachable
  edge : Option Edge := none
deriving DecidableEq, Inhabited

/-- The best layer of a slot and its score. -/
structure Best where
  inside : Score := .unreachable
  layer : Nat := 0
deriving DecidableEq, Inhabited

/-- The nonterminals populated over a span, in the order of their first commit. -/
structure Cell where
  /-- All of them. -/
  populated : Array NonTerminal := #[]
  /-- Those that are the left child of some production. -/
  left : Array NonTerminal := #[]
  /-- Those that are the right child of some production. -/
  right : Array NonTerminal := #[]
deriving DecidableEq, Inhabited

/-- Add a nonterminal to the lists it belongs to. -/
def Cell.add (g : Grammar) (nt : NonTerminal) (c : Cell) : Cell where
  populated := c.populated.push nt
  left := if g.isLeftChild nt then c.left.push nt else c.left
  right := if g.isRightChild nt then c.right.push nt else c.right

/-- The chart of one sentence. -/
structure Chart where
  /-- How many words the sentence has. -/
  size : Nat
  /-- How many nonterminals the grammar has. -/
  symbols : Nat
  /-- The longest run of unary productions a slot may end in. -/
  maxChain : Nat
  /-- The best layer of each slot. -/
  best : Array Best
  /-- The layers of each slot. -/
  layers : Array Layer
  /-- The populated nonterminals of each span. -/
  cells : Array Cell

/-- What a commit changed, beyond the layer it wrote. -/
structure Effect where
  /-- The slot had no derivation in any layer. -/
  isNew : Bool
  /-- The slot's score went up, so binary edges over it would change. -/
  raised : Bool
deriving DecidableEq

namespace Chart

/-- The chart of a sentence in which nothing is populated. -/
def empty (g : Grammar) (size maxChain : Nat) : Chart where
  size
  symbols := g.numNonterminals
  maxChain
  best := Array.replicate (Address.cells size * g.numNonterminals) {}
  layers := Array.replicate (Address.cells size * g.numNonterminals * (maxChain + 1)) {}
  cells := Array.replicate (Address.cells size) {}

/-! ## Reading a chart -/

/-- The place of a span's cell. -/
def cellIndex (c : Chart) (start stop : Nat) : Nat := Address.cell c.size start stop

/-- The place of a slot. -/
def slotIndex (c : Chart) (start stop : Nat) (nt : NonTerminal) : Nat :=
  Address.slot c.size c.symbols start stop nt

/-- The place of a layer. -/
def layerIndex (c : Chart) (start stop : Nat) (nt : NonTerminal) (layer : Nat) : Nat :=
  Address.layer (c.maxChain + 1) (c.slotIndex start stop nt) layer

/-- The lists of a span. -/
def cell (c : Chart) (start stop : Nat) : Cell := c.cells.getD (c.cellIndex start stop) {}

/-- The best layer of a slot and its score. -/
def bestOf (c : Chart) (start stop : Nat) (nt : NonTerminal) : Best :=
  c.best.getD (c.slotIndex start stop nt) {}

/-- One layer of a slot. -/
def layer (c : Chart) (start stop : Nat) (nt : NonTerminal) (d : Nat) : Layer :=
  c.layers.getD (c.layerIndex start stop nt d) {}

/-- The best score of a slot over its layers. -/
def inside (c : Chart) (start stop : Nat) (nt : NonTerminal) : Score := (c.bestOf start stop nt).inside

/-- How many unary productions the best derivation of a slot ends in. -/
def unaryDepth (c : Chart) (start stop : Nat) (nt : NonTerminal) : Nat :=
  (c.bestOf start stop nt).layer

/-- The score of a layer. -/
def layerInside (c : Chart) (start stop : Nat) (nt : NonTerminal) (d : Nat) : Score :=
  (c.layer start stop nt d).inside

/-- The figure of merit recorded with a layer. -/
def layerFom (c : Chart) (start stop : Nat) (nt : NonTerminal) (d : Nat) : Score :=
  (c.layer start stop nt d).fom

/-- The edge of a layer. -/
def layerEdge (c : Chart) (start stop : Nat) (nt : NonTerminal) (d : Nat) : Option Edge :=
  (c.layer start stop nt d).edge

/-- The figure of merit recorded with the best derivation of a slot. -/
def fom (c : Chart) (start stop : Nat) (nt : NonTerminal) : Score :=
  c.layerFom start stop nt (c.unaryDepth start stop nt)

/-- The edge of the best derivation of a slot. -/
def edge (c : Chart) (start stop : Nat) (nt : NonTerminal) : Option Edge :=
  c.layerEdge start stop nt (c.unaryDepth start stop nt)

/-- Whether a slot has a derivation. -/
def isPopulated (c : Chart) (start stop : Nat) (nt : NonTerminal) : Bool :=
  (c.edge start stop nt).isSome

/-- The nonterminals populated over a span. -/
def populated (c : Chart) (start stop : Nat) : List NonTerminal := (c.cell start stop).populated.toList

/-- The populated nonterminals that can be a left child. -/
def leftChildren (c : Chart) (start stop : Nat) : List NonTerminal := (c.cell start stop).left.toList

/-- The populated nonterminals that can be a right child. -/
def rightChildren (c : Chart) (start stop : Nat) : List NonTerminal :=
  (c.cell start stop).right.toList

/-- The score of the start symbol over the whole sentence. -/
def rootInside (c : Chart) (g : Grammar) : Score :=
  if c.size = 0 then .unreachable else c.inside 0 c.size g.start

/-- Whether the start symbol is populated over the whole sentence. -/
def isComplete (c : Chart) (g : Grammar) : Bool := c.size ≠ 0 && c.isPopulated 0 c.size g.start

/-- How many slots are populated. -/
def numPopulated (c : Chart) : Nat := c.cells.foldl (fun n cell => n + cell.populated.size) 0

/-- The spans of a chart, by start and then by stop. -/
def spans (c : Chart) : List (Nat × Nat) :=
  (List.range c.size).flatMap fun start =>
    (List.range' (start + 1) (c.size - start)).map fun stop => (start, stop)

/-- The populated nonterminals of a span, in ascending order. -/
def sortedPopulated (c : Chart) (start stop : Nat) : List NonTerminal :=
  (c.populated start stop).mergeSort

/-- The populated slots with their scores, by span and then by nonterminal. -/
def entries (c : Chart) : List (Slot × Score) :=
  c.spans.flatMap fun (start, stop) =>
    (c.sortedPopulated start stop).map fun nt => (⟨start, stop, nt⟩, c.inside start stop nt)

/-! ## Changing a chart -/

/-- Store an edge as the best derivation of its layer. -/
def commit (g : Grammar) (c : Chart) (e : Edge) : Effect × Chart :=
  let isNew := (c.edge e.start e.stop e.parent).isNone
  let raised := isNew || e.inside.improves (c.inside e.start e.stop e.parent)
  let slot := c.slotIndex e.start e.stop e.parent
  let place := c.layerIndex e.start e.stop e.parent e.layer
  let cell := c.cellIndex e.start e.stop
  (⟨isNew, raised⟩,
    { c with
      best := if raised then c.best.setIfInBounds slot ⟨e.inside, e.layer⟩ else c.best
      layers := c.layers.setIfInBounds place ⟨e.inside, e.fom, some e⟩
      cells := if isNew then c.cells.modify cell (Cell.add g e.parent) else c.cells })

/-- Commit an edge, without its effect. -/
def store (g : Grammar) (c : Chart) (e : Edge) : Chart := (c.commit g e).2

@[simp] theorem size_store (g : Grammar) (c : Chart) (e : Edge) : (c.store g e).size = c.size := rfl

@[simp] theorem symbols_store (g : Grammar) (c : Chart) (e : Edge) :
    (c.store g e).symbols = c.symbols := rfl

@[simp] theorem maxChain_store (g : Grammar) (c : Chart) (e : Edge) :
    (c.store g e).maxChain = c.maxChain := rfl

/-- A commit writes in place: the arrays keep their sizes. -/
@[simp] theorem size_layers_store (g : Grammar) (c : Chart) (e : Edge) :
    (c.store g e).layers.size = c.layers.size := by
  simp [store, commit]

@[simp] theorem size_best_store (g : Grammar) (c : Chart) (e : Edge) :
    (c.store g e).best.size = c.best.size := by
  simp only [store, commit]
  split <;> simp

@[simp] theorem size_cells_store (g : Grammar) (c : Chart) (e : Edge) :
    (c.store g e).cells.size = c.cells.size := by
  simp only [store, commit]
  split <;> simp

/-- Whether an edge is better than its layer. -/
def accepts (c : Chart) (e : Edge) : Bool :=
  e.inside.improves (c.layerInside e.start e.stop e.parent e.layer)

/-- Commit the lexical productions of a lexicon entry over the word at a position.
The nonterminals whose slots changed are returned in order. -/
def seed (g : Grammar) (c : Chart) (word : Option WordId) (i : Nat) : Array NonTerminal × Chart :=
  (g.lexicalWith word).foldl
    (fun (changed, c) id =>
      let e := Edge.lexical g id i
      if c.accepts e then (changed.push e.parent, c.store g e) else (changed, c))
    (#[], c)

end Chart

end BestParse
