import BestParse.Search.Queue
import BestParse.Search.BestFirst.Frontier

/-!
# Best-first search over edges

Candidate edges wait in a queue, ordered by figure of merit.  The search takes
the first edge, commits it when the commit rule finds it better than what its
layer holds, and then *expands* it: the unary edges over the layer just written
and, if the slot's score went up, the binary edges around the slot are rated and
put into the queue.

The words are seeded from left to right, and every seeded slot is expanded at
once.  The search is over when the start symbol is committed over the whole
sentence, when the queue is empty, or after a given number of edges.

One turn of the search is `State.step`; `State.run` repeats it.  Every commit
raises the value that the commit rule compares, and there are finitely many
scores, so `turns` bounds the number of turns of any search.
-/

namespace BestParse

/-! ## The parser -/

/-- What is compared when an edge is considered for commitment. -/
inductive CommitRule where
  /-- The score of the derivation. -/
  | inside
  /-- The figure of merit. -/
  | heuristic
deriving DecidableEq

/-- Whether an edge is better than what its layer holds. -/
def CommitRule.accepts (rule : CommitRule) (c : Chart) (e : Edge) : Bool :=
  match rule with
  | .inside => e.inside.improves (c.layerInside e.start e.stop e.parent e.layer)
  | .heuristic => e.fom.improves (c.layerFom e.start e.stop e.parent e.layer)

/-- An operation on the queue. -/
inductive QueueEvent where
  /-- An edge was taken in. -/
  | pushed (e : Edge)
  /-- An edge was declined. -/
  | declined (e : Edge)
  /-- An edge was taken out, or none was there. -/
  | popped (e : Option Edge)
deriving DecidableEq

/-- A parser that commits edges in the order of their figures of merit. -/
structure BestFirst where
  /-- What is compared before an edge is committed. -/
  rule : CommitRule
  /-- How binary edges are found, with what is remembered of the last sentence. -/
  frontier : Frontier
  /-- The candidates, as the last parse left them. -/
  queue : EdgeQueue
  /-- The longest run of unary productions over a span. -/
  maxChain : Nat := 1
  /-- How many edges may be taken; zero means any number. -/
  maxPops : Nat := 0
  /-- Whether to go on after the start symbol is committed. -/
  untilExhausted : Bool := false
  /-- How far the last parse came. -/
  phase : Phase := .initializing
  /-- The queue operations of the last parse, in order. -/
  history : Array QueueEvent := #[]

namespace BestFirst

/-- A parser before its first sentence. -/
def new (frontier : FrontierKind) (rule : CommitRule) (queue : QueueKind) : BestFirst where
  rule
  frontier := Frontier.empty frontier
  queue := EdgeQueue.empty queue

/-- A search under way. -/
structure State where
  chart : Chart
  frontier : Frontier
  queue : EdgeQueue
  phase : Phase := .initializing
  work : Work := {}
  history : Array QueueEvent := #[]
  notices : Array Notice := #[]
  faulty : Bool := false

/-! ## Expanding a slot -/

/-- The unary edges over one layer of a slot. -/
def unaryCandidates (t : Task) (c : Chart) (target : Target) : List Edge :=
  let ⟨⟨start, stop, symbol⟩, layer⟩ := target
  if layer < c.maxChain && t.limits.unaryOpen start stop then
    (t.grammar.unaryWithChild symbol).filterMap fun id =>
      let p := t.grammar.production id
      if t.limits.allows t.grammar start stop p.parent then
        (Score.extend p.logprob (c.layerInside start stop symbol layer)).map
          (Edge.unary t.grammar id start stop (layer + 1))
      else none
  else []

namespace State

/-- Rate an edge and offer it to the queue. -/
def push (t : Task) (s : State) (e : Edge) : State :=
  let ⟨chart, frontier, queue, phase, work, history, notices, faulty⟩ := s
  let rated := e.withFom (t.merit.score e chart)
  let faulty := faulty || !t.merit.covers e
  match queue.push rated with
  | (true, queue) =>
    ⟨chart, frontier, queue, phase, { work with pushes := work.pushes + 1 },
      history.push (.pushed rated), notices, faulty⟩
  | (false, queue) =>
    ⟨chart, frontier, queue, phase, work, history.push (.declined rated), notices, faulty⟩

/-- Make, rate and offer the edges that a commit to a target made possible. -/
def expand (t : Task) (s : State) (target : Target) (effect : Effect) : State :=
  let unaries := unaryCandidates t s.chart target
  let places :=
    if effect.raised then s.frontier.places t.grammar s.chart.size target.slot else []
  let binaries := places.filterMap (Place.edge? t s.chart)
  let candidates := unaries ++ binaries
  let completions := if s.frontier.completes then binaries.length else 0
  let frontier :=
    if effect.raised && effect.isNew then s.frontier.register t.grammar target.slot else s.frontier
  let s := { s with
    frontier
    work := { s.work with
      built := s.work.built + candidates.length
      completions := s.work.completions + completions }
    faulty := s.faulty || places.any (Place.isFaulty t.limits) }
  candidates.foldl (fun s e => s.push t e) s

/-! ## Seeding -/

/-- Seed the word at a position and expand the slots it populates. -/
def seedWord (t : Task) (s : State) (i : Nat) : State :=
  let (seeded, chart) := s.chart.seed t.grammar (t.sentence.token? i) i
  let s := { s with
    chart
    work := { s.work with committed := s.work.committed + seeded.size } }
  seeded.foldl (fun s nt => s.expand t ⟨⟨i, i + 1, nt⟩, 0⟩ ⟨true, true⟩) s

/-- Seed all words, and see whether a search is needed at all. -/
def seed (t : Task) (untilExhausted : Bool) (s : State) : State :=
  let s := (List.range t.sentence.size).foldl (fun s i => s.seedWord t i) s
  { s with
    phase := if s.chart.isComplete t.grammar && !untilExhausted then .done else .searching }

/-! ## Searching -/

/-- Commit an edge and go on from there. -/
def commit (t : Task) (untilExhausted : Bool) (s : State) (e : Edge) : State :=
  let (effect, chart) := s.chart.commit t.grammar e
  let s := { s with chart, work := { s.work with committed := s.work.committed + 1 } }
  if s.chart.isComplete t.grammar && !untilExhausted then { s with phase := .done }
  else s.expand t e.target effect

end State

/-- What a turn of the search leaves. -/
inductive Turn where
  /-- The search goes on. -/
  | next (s : State)
  /-- The search is over. -/
  | halt (s : State)

/-- One turn: take the first edge and commit it if it is better than its layer. -/
def step (b : BestFirst) (t : Task) (s : State) : Turn :=
  if s.phase ≠ .searching then .halt s
  else if 0 < b.maxPops ∧ b.maxPops ≤ s.work.pops then
    .halt { s with notices := s.notices.push (.edgesStopped s.work.pops) }
  else
    let (taken, queue) := s.queue.pop
    let s := { s with queue, history := s.history.push (.popped taken) }
    match taken with
    | none => .halt s
    | some e =>
      let s := { s with work := { s.work with pops := s.work.pops + 1 } }
      .next (if b.rule.accepts s.chart e then s.commit t b.untilExhausted e else s)

/-- At most so many turns. -/
def run (b : BestFirst) (t : Task) : (turns : Nat) → State → State
  | 0, s => s
  | turns + 1, s =>
    match b.step t s with
    | .next s => b.run t turns s
    | .halt s => s

/-- More turns than any search has: each commit raises one of the chart's layers,
which can happen less than `2 ^ 32` times to a layer, and makes a limited number of
candidates. -/
def turns (t : Task) (maxChain : Nat) : Nat :=
  let n := t.sentence.size
  let layers := Address.cells n * t.grammar.numNonterminals * (maxChain + 1)
  let candidates := t.grammar.numProductions * (4 * layers + 2 * n + 1)
  layers * UInt32.size * candidates + 1

/-- The search before its first word. -/
def start (b : BestFirst) (t : Task) : State where
  chart := Chart.empty t.grammar t.sentence.size b.maxChain
  frontier := b.frontier.reset t.sentence.size
  queue := b.queue.reset

/-- Say how the search ended. -/
def finish (t : Task) (s : State) : State :=
  let phase :=
    if s.phase ≠ .searching then s.phase
    else if s.chart.isComplete t.grammar then .done else .exhausted
  { s with
    phase
    notices := s.notices.push
      (.edgesEnded t.sentence.size phase s.work.pushes s.work.pops s.work.committed) }

/-- The whole search. -/
def search (b : BestFirst) (t : Task) : State :=
  finish t (b.run t (turns t b.maxChain) ((b.start t).seed t b.untilExhausted))

/-- Parse a sentence. -/
def parse (b : BestFirst) (t : Task) : Report × BestFirst :=
  let s := b.search t
  ({ chart := s.chart
     outcome := s.chart.outcome t.grammar
     work := s.work
     notices := s.notices
     faulty := s.faulty },
    { b with frontier := s.frontier, queue := s.queue, phase := s.phase, history := s.history })

end BestFirst
end BestParse
