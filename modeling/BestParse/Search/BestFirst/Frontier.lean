import BestParse.Search.Report

/-!
# Frontiers

When a slot's score goes up, new binary edges become possible with the slot as
one child and a populated neighbour as the other.  A frontier lists the *places*
where such an edge may stand: a production, a span and a split point.

* The scan frontier looks at every neighbouring span.
* The ghost frontier remembers, when a nonterminal is first populated, one ghost
  for each binary production it can take part in, filed under the child that is
  still missing and the position where that child has to begin or end.  A slot
  then completes the ghosts that wait for it.  Ghosts stay for the whole parse,
  since a slot that is populated stays so.
-/

namespace BestParse

/-- A binary production over a span and a split point. -/
structure Place where
  production : ProductionId
  start : Nat
  mid : Nat
  stop : Nat
deriving DecidableEq

/-- The edge at a place, from the current scores of its children.  There is none when
the limits forbid it or a child is unreachable. -/
def Place.edge? (t : Task) (c : Chart) (p : Place) : Option Edge :=
  let q := t.grammar.production p.production
  if t.limits.isOpen p.start p.stop && (t.limits.splits p.start p.stop).contains p.mid
      && t.limits.allows t.grammar p.start p.stop q.parent then
    match q.expansion with
    | .binary l r =>
      (Score.combine q.logprob (c.inside p.start p.mid l) (c.inside p.mid p.stop r)).map
        (Edge.binary t.grammar p.production p.start p.mid p.stop)
    | _ => none
  else none

/-- Whether the split points at a place leave machine words. -/
def Place.isFaulty (limits : Limits) (p : Place) : Bool :=
  limits.isOpen p.start p.stop && !limits.splitsFit p.start p.stop

/-! ## Scanning -/

/-- The places around a slot, over all neighbouring spans of a sentence. -/
def scanPlaces (g : Grammar) (size : Nat) (slot : Slot) : List Place :=
  (List.range' (slot.stop + 1) (size - slot.stop)).flatMap (fun stop =>
      (g.binaryWithLeft slot.symbol).map fun id => ⟨id, slot.start, slot.stop, stop⟩)
    ++ (List.range slot.start).flatMap (fun start =>
      (g.binaryWithRight slot.symbol).map fun id => ⟨id, start, slot.start, slot.stop⟩)

/-! ## Ghosts -/

/-- One half of a binary edge, waiting for the other. -/
structure Ghost where
  production : ProductionId
  /-- The far end of the half that is there. -/
  anchor : Nat
deriving DecidableEq

/-- Ghosts by the nonterminal they wait for and the position where it has to begin or
end. -/
structure GhostTable where
  /-- How many words the sentence has. -/
  size : Nat := 0
  /-- Left halves, by the right child and where it begins. -/
  awaitingRight : PairMap (Array Ghost) := ∅
  /-- Right halves, by the left child and where it ends. -/
  awaitingLeft : PairMap (Array Ghost) := ∅

namespace GhostTable

/-- File a ghost under a nonterminal and a position. -/
def file (table : PairMap (Array Ghost)) (symbol : NonTerminal) (position : Nat) (ghost : Ghost) :
    PairMap (Array Ghost) :=
  table.insert (symbol, position) ((table.getD (symbol, position) #[]).push ghost)

/-- The places where a slot completes a ghost. -/
def places (table : GhostTable) (slot : Slot) : List Place :=
  (table.awaitingRight.getD (slot.symbol, slot.start) #[]).toList.map
      (fun ghost => ⟨ghost.production, ghost.anchor, slot.start, slot.stop⟩)
    ++ (table.awaitingLeft.getD (slot.symbol, slot.stop) #[]).toList.map
      (fun ghost => ⟨ghost.production, slot.start, slot.stop, ghost.anchor⟩)

/-- Leave the ghosts of a slot that was populated for the first time.  Nothing can
stand beside the whole sentence. -/
def register (g : Grammar) (table : GhostTable) (slot : Slot) : GhostTable :=
  if slot.start = 0 ∧ slot.stop = table.size then table
  else
    { table with
      awaitingRight :=
        if slot.stop < table.size then
          (g.binaryWithLeft slot.symbol).foldl
            (fun ghosts id =>
              match (g.production id).expansion.right? with
              | some right => file ghosts right slot.stop ⟨id, slot.start⟩
              | none => ghosts)
            table.awaitingRight
        else table.awaitingRight
      awaitingLeft :=
        if 0 < slot.start then
          (g.binaryWithRight slot.symbol).foldl
            (fun ghosts id =>
              match (g.production id).expansion.left? with
              | some left => file ghosts left slot.start ⟨id, slot.stop⟩
              | none => ghosts)
            table.awaitingLeft
        else table.awaitingLeft }

/-- How many ghosts wait. -/
def tally (table : PairMap (Array Ghost)) : Nat :=
  table.foldl (fun n _ ghosts => n + ghosts.size) 0

/-- How many ghosts wait, on either side. -/
def count (table : GhostTable) : Nat := tally table.awaitingRight + tally table.awaitingLeft

end GhostTable

/-! ## Frontiers of either kind -/

/-- How binary edges around a slot are found. -/
inductive FrontierKind where
  | scan
  | ghost
deriving DecidableEq

/-- A frontier with what it remembers. -/
inductive Frontier where
  | scan
  | ghost (table : GhostTable)

namespace Frontier

/-- A frontier that has not seen a sentence. -/
def empty : FrontierKind → Frontier
  | .scan => .scan
  | .ghost => .ghost {}

/-- The frontier at the beginning of a sentence. -/
def reset (size : Nat) : Frontier → Frontier
  | .scan => .scan
  | .ghost _ => .ghost { size }

/-- The places around a slot in a sentence of the size given. -/
def places (g : Grammar) (size : Nat) (slot : Slot) : Frontier → List Place
  | .scan => scanPlaces g size slot
  | .ghost table => table.places slot

/-- Remember a slot that was populated for the first time. -/
def register (g : Grammar) (slot : Slot) : Frontier → Frontier
  | .scan => .scan
  | .ghost table => .ghost (table.register g slot)

/-- Whether edges made at places count as completions. -/
def completes : Frontier → Bool
  | .scan => false
  | .ghost _ => true

/-- How many ghosts wait, where there are ghosts. -/
def ghosts? : Frontier → Option Nat
  | .scan => none
  | .ghost table => some table.count

end Frontier

end BestParse
