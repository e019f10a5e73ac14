import BestParse.Search.SpanFirst

/-!
# Span-first search with its buffers

A visit notes the best improving edge for each parent in a table, and the parents in the order
in which they were first noted.  Then it takes the noted edges out again, one parent after the
other, and puts them into the local queue.

The table is never emptied at once: every entry that a visit makes it takes out again.  So a visit
relies on the one before it.

A `Working` search carries the buffers along, and a `Desk` is a parser that keeps them for the next
sentence.
-/

namespace BestParse
namespace SpanFirst

/-- A span-first search under way, with its buffers. -/
structure Working where
  state : State
  /-- The best edge noted for each parent. -/
  bestOf : Array (Option Edge)
  /-- The parents noted, in order. -/
  touched : List NonTerminal := []

namespace Working

/-- Note a rated edge, unless one that is as good was noted for its parent. -/
def note (w : Working) (e : Edge) : Working :=
  let held := w.bestOf.getD e.parent none
  let better : Bool :=
    match held with
    | none => true
    | some b => e.fom.improves b.fom
  { w with
    bestOf := if better then w.bestOf.setIfInBounds e.parent (some e) else w.bestOf
    touched := if held.isNone then w.touched ++ [e.parent] else w.touched }

/-- Take out the edge noted for a parent and put it into the local queue. -/
def release (w : Working) (nt : NonTerminal) : Working :=
  match w.bestOf.getD nt none with
  | none => w
  | some e => { w with state := w.state.push e, bestOf := w.bestOf.setIfInBounds nt none }

/-- Take out all edges that were noted. -/
def releaseAll (w : Working) : Working :=
  { w.touched.foldl release w with touched := [] }

/-- Admit the best improving edges over a span. -/
def visit (t : Task) (maxLocal : Nat) (w : Working) (start stop : Nat) : Working :=
  let s := w.state
  let found := binaryEdges t s.chart start stop
  let improving := found.filter s.chart.accepts
  let s := { s with
    work := { s.work with built := s.work.built + found.length }
    faulty := s.faulty || isFaulty t s.chart start stop }
  let w := ((improving.map (rate t s.chart)).foldl note { w with state := s }).releaseAll
  { w with state := w.state.drain t maxLocal }

/-- What a turn leaves. -/
inductive Turn where
  /-- The search goes on. -/
  | next (w : Working)
  /-- The search is over. -/
  | halt (w : Working)

/-- One turn: visit the span with the best key. -/
def step (p : SpanFirst) (t : Task) (w : Working) : Turn :=
  let s := w.state
  if s.isSettled t then .halt w
  else
    match s.top? with
    | none => .halt w
    | some ((start, stop), fom) =>
      if 0 < p.maxVisits ∧ p.maxVisits ≤ s.work.visits then
        .halt { w with state := { s with notices := s.notices.push (.spansStopped s.work.visits) } }
      else
        let s := { s with
          keys := s.keys.erase (start, stop)
          work := { s.work with visits := s.work.visits + 1 }
          notices := s.notices.push (.spanVisited start stop fom) }
        let w := visit t p.maxLocal { w with state := s } start stop
        let s := w.state.rekey t start stop
        .next { w with state := s.propagate t start stop }

/-- At most so many turns. -/
def run (p : SpanFirst) (t : Task) : (turns : Nat) → Working → Working
  | 0, w => w
  | turns + 1, w =>
    match w.step p t with
    | .next w => run p t turns w
    | .halt w => w

end Working

/-! ## Parsers that keep their buffers -/

/-- A span-first parser with its buffers. -/
structure Desk where
  parser : SpanFirst
  bestOf : Array (Option Edge)
  touched : List NonTerminal := []

/-- A parser with new buffers, for a grammar. -/
def desk (g : Grammar) (p : SpanFirst) : Desk where
  parser := p
  bestOf := Array.replicate g.numNonterminals none

/-- Parse a sentence. -/
def Desk.parse (d : Desk) (t : Task) : Report × Desk :=
  let p := d.parser
  let start : State := { chart := Chart.empty t.grammar t.sentence.size p.maxChain }
  let seeded := start.seed t p.maxLocal
  let w := Working.run p t (turns seeded.chart)
    { state := seeded, bestOf := d.bestOf, touched := d.touched }
  let s := w.state
  let outcome := s.chart.outcome t.grammar
  ({ chart := s.chart
     outcome
     work := s.work
     notices := s.notices.push
      (.spansEnded t.sentence.size s.work.visits s.work.committed outcome)
     faulty := s.faulty },
    { d with bestOf := w.bestOf, touched := w.touched })

end SpanFirst
end BestParse
