import BestParse.Search.Buffer
import BestParse.Search.BestFirst.Basic

/-!
# Best-first search with its buffer

An expansion collects its candidates in a buffer before it rates them and offers them to the
queue.  The buffer is emptied when an expansion begins, and again when its edges are taken out.

A `Working` search carries the buffer along.  A `Desk` is a parser that keeps it for the next
sentence, beside its frontier and its queue.
-/

namespace BestParse
namespace BestFirst

/-- A best-first search under way, with its buffer. -/
structure Working where
  state : State
  candidates : List Edge := []

namespace Working

/-- Make the edges that a commit to a target made possible, then rate and offer them. -/
def expand (t : Task) (w : Working) (target : Target) (effect : Effect) : Working :=
  let s := w.state
  let places :=
    if effect.raised then s.frontier.places t.grammar s.chart.size target.slot else []
  let binaries := places.filterMap (Place.edge? t s.chart)
  let candidates := refill w.candidates (unaryCandidates t s.chart target)
  let candidates := candidates ++ binaries
  let completions := if s.frontier.completes then binaries.length else 0
  let frontier :=
    if effect.raised && effect.isNew then s.frontier.register t.grammar target.slot else s.frontier
  let s := { s with
    frontier
    work := { s.work with
      built := s.work.built + candidates.length
      completions := s.work.completions + completions }
    faulty := s.faulty || places.any (Place.isFaulty t.limits) }
  { state := candidates.foldl (fun s e => s.push t e) s, candidates := [] }

/-- Seed the word at a position and expand the slots it populates. -/
def seedWord (t : Task) (w : Working) (i : Nat) : Working :=
  let s := w.state
  let (seeded, chart) := s.chart.seed t.grammar (t.sentence.token? i) i
  let s := { s with
    chart
    work := { s.work with committed := s.work.committed + seeded.size } }
  seeded.foldl (fun w nt => w.expand t ⟨⟨i, i + 1, nt⟩, 0⟩ ⟨true, true⟩) { w with state := s }

/-- Seed all words, and see whether a search is needed at all. -/
def seed (t : Task) (untilExhausted : Bool) (w : Working) : Working :=
  let w := (List.range t.sentence.size).foldl (fun w i => w.seedWord t i) w
  let s := w.state
  { w with
    state := { s with
      phase := if s.chart.isComplete t.grammar && !untilExhausted then .done else .searching } }

/-- Commit an edge and go on from there. -/
def commit (t : Task) (untilExhausted : Bool) (w : Working) (e : Edge) : Working :=
  let s := w.state
  let (effect, chart) := s.chart.commit t.grammar e
  let s := { s with chart, work := { s.work with committed := s.work.committed + 1 } }
  if s.chart.isComplete t.grammar && !untilExhausted then
    { w with state := { s with phase := .done } }
  else { w with state := s }.expand t e.target effect

/-- What a turn leaves. -/
inductive Turn where
  /-- The search goes on. -/
  | next (w : Working)
  /-- The search is over. -/
  | halt (w : Working)

/-- One turn: take the first edge and commit it if it is better than its layer. -/
def step (b : BestFirst) (t : Task) (w : Working) : Turn :=
  let s := w.state
  if s.phase ≠ .searching then .halt w
  else if 0 < b.maxPops ∧ b.maxPops ≤ s.work.pops then
    .halt { w with state := { s with notices := s.notices.push (.edgesStopped s.work.pops) } }
  else
    let (taken, queue) := s.queue.pop
    let s := { s with queue, history := s.history.push (.popped taken) }
    match taken with
    | none => .halt { w with state := s }
    | some e =>
      let s := { s with work := { s.work with pops := s.work.pops + 1 } }
      let w := { w with state := s }
      .next (if b.rule.accepts s.chart e then w.commit t b.untilExhausted e else w)

/-- At most so many turns. -/
def run (b : BestFirst) (t : Task) : (turns : Nat) → Working → Working
  | 0, w => w
  | turns + 1, w =>
    match w.step b t with
    | .next w => run b t turns w
    | .halt w => w

end Working

/-! ## Parsers that keep their buffer -/

/-- A best-first parser with its buffer. -/
structure Desk where
  parser : BestFirst
  candidates : List Edge := []

/-- Parse a sentence. -/
def Desk.parse (d : Desk) (t : Task) : Report × Desk :=
  let b := d.parser
  let start : Working := { state := b.start t, candidates := d.candidates }
  let w := Working.run b t (turns t b.maxChain) (start.seed t b.untilExhausted)
  let s := finish t w.state
  ({ chart := s.chart
     outcome := s.chart.outcome t.grammar
     work := s.work
     notices := s.notices
     faulty := s.faulty },
    { parser :=
        { b with frontier := s.frontier, queue := s.queue, phase := s.phase, history := s.history }
      candidates := w.candidates })

end BestFirst
end BestParse
