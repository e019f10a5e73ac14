import BestParse.Grammar.Production
import Std.Data.TreeMap.Lemmas

/-!
# Production indexes

Every question a search asks of a grammar is answered by a table: the binary
productions with a given left child, right child or pair of children, the unary
productions with a given child, and the lexical productions of a word.  Each
table entry lists production numbers in ascending order.

The tables are filled from the last production to the first, so that putting a
number in front keeps the lists ascending.
-/

namespace BestParse

/-- A map keyed by pairs of numbers, in lexicographic order. -/
abbrev PairMap (β : Type) := Std.TreeMap (Nat × Nat) β (@compare (Nat × Nat) lexOrd)

/-- Production numbers by what the productions expand into. -/
structure Index where
  /-- All binary productions. -/
  binary : List ProductionId
  /-- Binary productions by left child. -/
  byLeft : Array (List ProductionId)
  /-- Binary productions by right child. -/
  byRight : Array (List ProductionId)
  /-- Binary productions by both children. -/
  byPair : PairMap (List ProductionId)
  /-- Unary productions by child. -/
  byChild : Array (List ProductionId)
  /-- Lexical productions by word. -/
  byWord : Array (List ProductionId)

namespace Index

/-- The index of a grammar without productions. -/
def empty (nonterminals words : Nat) : Index where
  binary := []
  byLeft := Array.replicate nonterminals []
  byRight := Array.replicate nonterminals []
  byPair := ∅
  byChild := Array.replicate nonterminals []
  byWord := Array.replicate words []

/-- Put a production in front of the entries it belongs to. -/
def add (id : ProductionId) (expansion : Expansion) (index : Index) : Index :=
  match expansion with
  | .binary l r =>
    { index with
      binary := id :: index.binary
      byLeft := index.byLeft.modify l (id :: ·)
      byRight := index.byRight.modify r (id :: ·)
      byPair := index.byPair.insert (l, r) (id :: index.byPair.getD (l, r) []) }
  | .unary c => { index with byChild := index.byChild.modify c (id :: ·) }
  | .lexical w => { index with byWord := index.byWord.modify w (id :: ·) }

/-- The index of a list of productions. -/
def ofProductions (nonterminals words : Nat) (productions : Array Production) : Index :=
  productions.zipIdx.foldr (fun (p, id) index => index.add id p.expansion)
    (empty nonterminals words)

end Index

end BestParse
