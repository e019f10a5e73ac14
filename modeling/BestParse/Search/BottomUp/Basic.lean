import BestParse.Search.BottomUp.Discovery

/-!
# Bottom-up search

Cells are filled in the order of their width.  The cell of a word is seeded from
the lexicon and closed under unary productions; a wider cell is offered the
binary edges that a discovery finds, unless it is closed, and then closed under
unary productions.  When all cells are finished, the chart holds the best
derivations.

A bottom-up parser keeps the extents of its last sentence.  Each parse starts
them anew.
-/

namespace BestParse

/-- A parser that fills the whole chart. -/
structure BottomUp where
  /-- How binary edges are found. -/
  discovery : Discovery
  /-- The longest run of unary productions over a span. -/
  maxChain : Nat := 1
  /-- The extents of the last sentence, kept by the discovery that uses them. -/
  extents : Extents := {}

namespace BottomUp

/-- A bottom-up search under way. -/
structure State where
  progress : Progress
  extents : Extents
  faulty : Bool := false

/-- Take up a finished cell in the extents, where they are used. -/
def State.finishCell (discovery : Discovery) (s : State) (start stop : Nat) : State :=
  if discovery = .extents then
    { s with extents := s.extents.finish s.progress.chart start stop }
  else s

/-- Fill the cell of the word at a position. -/
def State.fillWord (t : Task) (discovery : Discovery) (s : State) (i : Nat) : State :=
  let ⟨⟨chart, work⟩, extents, faulty⟩ := s
  let (seeded, chart) := chart.seed t.grammar (t.sentence.token? i) i
  let work := { work with committed := work.committed + seeded.size }
  let progress := Progress.unaryPasses t.grammar t.limits ⟨chart, work⟩ i (i + 1)
  State.finishCell discovery ⟨progress, extents, faulty⟩ i (i + 1)

/-- Find and offer the edges of an open cell. -/
def State.fillOpen (t : Task) (discovery : Discovery) (s : State) (start stop : Nat) : State :=
  let ⟨progress, extents, faulty⟩ := s
  let list := proposals t.grammar t.limits progress.chart extents start stop discovery
  let extents :=
    if discovery = .extents then
      { extents with
        skipped := extents.skipped + infeasibleCount t.grammar t.limits extents start stop }
    else extents
  let progress := progress.fill t.grammar t.limits start stop list
  let progress := progress.unaryPasses t.grammar t.limits start stop
  ⟨progress, extents, faulty || !t.limits.splitsFit start stop⟩

/-- Fill the cell of a span of two words or more. -/
def State.fillSpan (t : Task) (discovery : Discovery) (s : State) (start stop : Nat) : State :=
  let s := if t.limits.isOpen start stop then s.fillOpen t discovery start stop else s
  s.finishCell discovery start stop

/-- The spans of two words or more, in the order of their width. -/
def widerSpans (n : Nat) : List (Nat × Nat) :=
  (List.range' 2 (n - 1)).flatMap fun width =>
    (List.range (n - width + 1)).map fun start => (start, start + width)

/-- The search before its first cell. -/
def State.start (t : Task) (maxChain : Nat) : State where
  progress := ⟨Chart.empty t.grammar t.sentence.size maxChain, {}⟩
  extents := Extents.start t.grammar.numNonterminals t.sentence.size

/-- Fill all cells. -/
def State.run (t : Task) (discovery : Discovery) (s : State) : State :=
  let n := t.sentence.size
  let s := (List.range n).foldl (fun s i => s.fillWord t discovery i) s
  (widerSpans n).foldl (fun s (start, stop) => s.fillSpan t discovery start stop) s

/-- Parse a sentence. -/
def parse (b : BottomUp) (t : Task) : Report × BottomUp :=
  let ⟨⟨chart, work⟩, extents, faulty⟩ := (State.start t b.maxChain).run t b.discovery
  let outcome := chart.outcome t.grammar
  ({ chart, outcome, work, faulty
     notices := #[.bottomUpEnded t.sentence.size work.built work.committed outcome] },
    { b with extents })

end BottomUp
end BestParse
