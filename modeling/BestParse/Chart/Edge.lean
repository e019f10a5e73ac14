import BestParse.Grammar.Basic

/-!
# Edges

An edge is a production applied over a span: a candidate derivation of the
production's parent.  The left or only child lies over `(start, mid)` and the
right child over `(mid, stop)`; edges without a right child have `mid = stop`.

An edge fills one *layer* of its slot.  Layer zero is for binary and lexical
edges, and layer `d` for derivations that end in exactly `d` unary productions.
-/

namespace BestParse

/-- A nonterminal over a span. -/
structure Slot where
  start : Nat
  stop : Nat
  symbol : NonTerminal
deriving DecidableEq, Inhabited

/-- A layer of a slot. -/
structure Target where
  slot : Slot
  layer : Nat
deriving DecidableEq, Inhabited

/-- A candidate derivation: a production applied to child cells. -/
structure Edge where
  /-- The production. -/
  production : ProductionId
  /-- Its parent. -/
  parent : NonTerminal
  /-- The left or only child. -/
  left : Option NonTerminal
  /-- The right child. -/
  right : Option NonTerminal
  start : Nat
  mid : Nat
  stop : Nat
  /-- The layer the edge fills. -/
  layer : Nat
  /-- The score of the derivation. -/
  inside : Score
  /-- The figure of merit, which is the score until a heuristic rates the edge. -/
  fom : Score
deriving DecidableEq, Inhabited

namespace Edge

/-! ## Making edges -/

/-- A binary production over two neighbouring spans. -/
def binary (g : Grammar) (id : ProductionId) (start mid stop : Nat) (inside : Score) : Edge :=
  let p := g.production id
  { production := id
    parent := p.parent
    left := p.expansion.left?
    right := p.expansion.right?
    start, mid, stop
    layer := 0
    inside
    fom := inside }

/-- A unary production over a span, filling a layer from the child's layer below. -/
def unary (g : Grammar) (id : ProductionId) (start stop layer : Nat) (inside : Score) : Edge :=
  let p := g.production id
  { production := id
    parent := p.parent
    left := p.expansion.left?
    right := none
    start
    mid := stop
    stop, layer, inside
    fom := inside }

/-- A lexical production over the word at a position. -/
def lexical (g : Grammar) (id : ProductionId) (start : Nat) : Edge :=
  let p := g.production id
  { production := id
    parent := p.parent
    left := none
    right := none
    start
    mid := start + 1
    stop := start + 1
    layer := 0
    inside := p.logprob
    fom := p.logprob }

/-- A binary edge of a production that the grammar has. -/
def binary? (g : Grammar) (id : ProductionId) (start mid stop : Nat) (inside : Score) :
    Option Edge :=
  if id < g.numProductions then some (binary g id start mid stop inside) else none

/-- A unary edge of a production that the grammar has, above layer zero. -/
def unary? (g : Grammar) (id : ProductionId) (start stop layer : Nat) (inside : Score) :
    Option Edge :=
  if id < g.numProductions ∧ 0 < layer then some (unary g id start stop layer inside) else none

/-- A lexical edge of a production that the grammar has. -/
def lexical? (g : Grammar) (id : ProductionId) (start : Nat) : Option Edge :=
  if id < g.numProductions then some (lexical g id start) else none

/-- The edge with another figure of merit. -/
def withFom (e : Edge) (fom : Score) : Edge := { e with fom }

/-! ## Reading edges -/

/-- The form of an edge, by its children. -/
def kind (e : Edge) : Kind :=
  if e.right.isSome then .binary else if e.left.isSome then .unary else .lexical

/-- The slot of an edge. -/
def slot (e : Edge) : Slot := ⟨e.start, e.stop, e.parent⟩

/-- The slot layer an edge competes for. -/
def target (e : Edge) : Target := ⟨e.slot, e.layer⟩

/-- How many words an edge covers; none if it stops before it starts. -/
def width? (e : Edge) : Option Nat := if e.start ≤ e.stop then some (e.stop - e.start) else none

/-- The span of the left or only child. -/
def leftSpan (e : Edge) : Nat × Nat := (e.start, e.mid)

/-- The span of the right child. -/
def rightSpan? (e : Edge) : Option (Nat × Nat) :=
  if e.kind = .binary then some (e.mid, e.stop) else none

end Edge

end BestParse
