import BestParse.Chart.Basic
import BestParse.Score.Bits

/-!
# Figures of merit

A figure of merit rates a candidate edge before it is committed.  It may look at
the edge and at the chart as it stands.  The default is the edge's own score; a
prior adds a number that depends on the edge's parent.

A table of priors may be shorter than the list of nonterminals.  `covers` tells
the edges whose figure the table knows.
-/

namespace BestParse

/-- A rating of candidate edges. -/
structure Merit where
  /-- The figure of an edge over a chart. -/
  score : Edge → Chart → Score
  /-- Whether the figure of an edge is known. -/
  covers : Edge → Bool := fun _ => true

namespace Merit

/-- The score of the derivation itself. -/
def inside : Merit where
  score e _ := e.inside

/-- The score of the derivation plus a prior of its parent. -/
def ofPriors (priors : Array Score) : Merit where
  score e _ := e.inside + priors.getD e.parent .unreachable
  covers e := e.parent < priors.size

/-- How many productions each nonterminal is the parent of. -/
def parentCounts (g : Grammar) : Array Nat :=
  g.productions.foldl (fun counts p => counts.modify p.parent (· + 1))
    (Array.replicate g.numNonterminals 0)

/-- A count with twenty-four significant bits. -/
def roundedCount (n : Nat) : Nat := roundRatio n 1

/-- The log relative frequency of each nonterminal as a parent.  A nonterminal that is
never a parent is rated below all others.  Counts are rounded before they are divided. -/
def priorsOf (g : Grammar) : Array Score :=
  let total := roundedCount (max g.numProductions 1)
  (parentCounts g).map fun count =>
    if count = 0 then (Score.ofRatio false 1 (roundedCount (total + 1))).log
    else (Score.ofRatio false (roundedCount count) total).log

end Merit

end BestParse
