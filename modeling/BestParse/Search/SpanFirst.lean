import BestParse.Search.Queue
import BestParse.Search.Report

/-!
# Best-first search over spans

Each span of two words or more has a *key*: the best figure of merit of a binary
edge over it that would improve its target.  The search visits the span with the
best key; ties go to the narrower span and then to the one further left.

A visit collects the best improving edge for each parent and passes them through
a local queue, which admits them up to a given number, together with the unary
edges over every layer it writes.  Afterwards the keys of the visited span and
of all spans that can use it as a child are computed anew.

The search is over when the start symbol is populated over the whole sentence
and no key is above its figure of merit, when no span has a key, or after a given
number of visits.
-/

namespace BestParse

/-- A parser that visits spans in the order of their best edges. -/
structure SpanFirst where
  /-- The longest run of unary productions over a span. -/
  maxChain : Nat := 1
  /-- How many spans may be visited; zero means any number. -/
  maxVisits : Nat := 0
  /-- How many binary edges a visit may admit; zero means any number. -/
  maxLocal : Nat := 0

namespace SpanFirst

/-- A search under way. -/
structure State where
  chart : Chart
  /-- The keys of the spans that have one. -/
  keys : PairMap Score := ∅
  /-- The edges waiting for admission. -/
  waiting : StableQueue := {}
  work : Work := {}
  notices : Array Notice := #[]
  faulty : Bool := false

/-! ## Candidate edges -/

/-- The binary edges over a span whose parents are allowed, from the current scores of
their children. -/
def binaryEdges (t : Task) (c : Chart) (start stop : Nat) : List Edge :=
  (t.limits.splits start stop).positions.flatMap fun mid =>
    (c.leftChildren start mid).flatMap fun l =>
      (c.rightChildren mid stop).flatMap fun r =>
        (t.grammar.binaryWithPair l r).filterMap fun id =>
          let p := t.grammar.production id
          if t.limits.allows t.grammar start stop p.parent then
            (Score.combine p.logprob (c.inside start mid l) (c.inside mid stop r)).map
              (Edge.binary t.grammar id start mid stop)
          else none

/-- The edge with its figure of merit. -/
def rate (t : Task) (c : Chart) (e : Edge) : Edge := e.withFom (t.merit.score e c)

/-- The binary edges over a span that would improve their targets, not yet rated. -/
def improvingEdges (t : Task) (c : Chart) (start stop : Nat) : List Edge :=
  (binaryEdges t c start stop).filter c.accepts

/-- The best figure of merit of an improving edge over an open span. -/
def bestFom (t : Task) (c : Chart) (start stop : Nat) : Score :=
  if t.limits.isOpen start stop then
    (improvingEdges t c start stop).foldl
      (fun best e =>
        let fom := t.merit.score e c
        if fom.improves best then fom else best)
      .unreachable
  else .unreachable

/-- Whether computing the figures over a span uses a number outside its range. -/
def isFaulty (t : Task) (c : Chart) (start stop : Nat) : Bool :=
  !t.limits.splitsFit start stop
    || (improvingEdges t c start stop).any fun e => !t.merit.covers e

/-- Keep the better of two edges with the same parent.  Parents stay in the order of
their first edge. -/
def keepBest (kept : List Edge) (e : Edge) : List Edge :=
  match kept with
  | [] => [e]
  | b :: rest =>
    if b.parent = e.parent then (if e.fom.improves b.fom then e else b) :: rest
    else b :: keepBest rest e

namespace State

/-! ## Keys -/

/-- Compute the key of a span anew.  A span without an improving edge has none. -/
def rekey (t : Task) (s : State) (start stop : Nat) : State :=
  let best := bestFom t s.chart start stop
  let faulty := s.faulty || (t.limits.isOpen start stop && isFaulty t s.chart start stop)
  if best.isReachable then
    let pushes := if s.keys.contains (start, stop) then s.work.pushes else s.work.pushes + 1
    { s with keys := s.keys.insert (start, stop) best, work := { s.work with pushes }, faulty }
  else { s with keys := s.keys.erase (start, stop), faulty }

/-- Compute the keys of all spans that have a span as a child. -/
def propagate (t : Task) (s : State) (start stop : Nat) : State :=
  let s := (List.range start).foldl (fun s k => s.rekey t k stop) s
  (List.range' (stop + 1) (s.chart.size - stop)).foldl (fun s k => s.rekey t start k) s

/-! ## Admission -/

/-- Put a rated edge into the local queue. -/
def push (s : State) (e : Edge) : State :=
  { s with
    waiting := s.waiting.push e
    work := { s.work with pushes := s.work.pushes + 1 } }

/-- Make, rate and queue one unary edge over a layer, unless its parent is not allowed
or the layer is unreachable. -/
def pushUnary (t : Task) (target : Target) (s : State) (id : ProductionId) : State :=
  let ⟨⟨start, stop, symbol⟩, layer⟩ := target
  let p := t.grammar.production id
  if t.limits.allows t.grammar start stop p.parent then
    match Score.extend p.logprob (s.chart.layerInside start stop symbol layer) with
    | some inside =>
      let e := Edge.unary t.grammar id start stop (layer + 1) inside
      let rated := rate t s.chart e
      let s := { s with
        work := { s.work with built := s.work.built + 1 }
        faulty := s.faulty || !t.merit.covers e }
      s.push rated
    | none => s
  else s

/-- Queue the unary edges over a layer. -/
def pushUnaries (t : Task) (s : State) (target : Target) : State :=
  if target.layer < s.chart.maxChain
      && t.limits.unaryOpen target.slot.start target.slot.stop then
    (t.grammar.unaryWithChild target.slot.symbol).foldl (pushUnary t target) s
  else s

/-- Empty the local queue, for at most so many edges.  Improving edges are committed,
binary ones up to the number given. -/
def drainFrom (t : Task) (maxLocal : Nat) : (turns admitted : Nat) → State → State
  | 0, _, s => s
  | turns + 1, admitted, s =>
    match s.waiting.pop with
    | (none, _) => s
    | (some e, waiting) =>
      let s := { s with waiting, work := { s.work with pops := s.work.pops + 1 } }
      let binary : Bool := e.kind = .binary
      if (binary && 0 < maxLocal && maxLocal ≤ admitted) || !s.chart.accepts e then
        drainFrom t maxLocal turns admitted s
      else
        let s := { s with
          chart := s.chart.store t.grammar e
          work := { s.work with committed := s.work.committed + 1 } }
        drainFrom t maxLocal turns (if binary then admitted + 1 else admitted)
          (s.pushUnaries t e.target)

/-- More edges than pass through the local queue in one go: those that wait, and the
unary edges of every commit. -/
def admissions (t : Task) (s : State) : Nat :=
  s.waiting.size + s.chart.numLayers * UInt32.size * t.grammar.numProductions + 1

/-- Empty the local queue. -/
def drain (t : Task) (maxLocal : Nat) (s : State) : State :=
  drainFrom t maxLocal (s.admissions t) 0 s

/-! ## Visits -/

/-- Admit the best improving edges over a span. -/
def visit (t : Task) (maxLocal : Nat) (s : State) (start stop : Nat) : State :=
  let found := binaryEdges t s.chart start stop
  let improving := found.filter s.chart.accepts
  let best := (improving.map (rate t s.chart)).foldl keepBest []
  let s := { s with
    work := { s.work with built := s.work.built + found.length }
    faulty := s.faulty || isFaulty t s.chart start stop }
  (best.foldl push s).drain t maxLocal

/-- Seed the word at a position and admit the unary edges over it. -/
def seedWord (t : Task) (maxLocal : Nat) (s : State) (i : Nat) : State :=
  let (seeded, chart) := s.chart.seed t.grammar (t.sentence.token? i) i
  let s := { s with
    chart
    work := { s.work with committed := s.work.committed + seeded.size } }
  let s := seeded.foldl (fun s nt => s.pushUnaries t ⟨⟨i, i + 1, nt⟩, 0⟩) s
  s.drain t maxLocal

/-- Seed all words, and compute the keys of the spans around them. -/
def seed (t : Task) (maxLocal : Nat) (s : State) : State :=
  let n := t.sentence.size
  let s := (List.range n).foldl (fun s i => s.seedWord t maxLocal i) s
  (List.range n).foldl (fun s i => s.propagate t i (i + 1)) s

end State

/-! ## The search -/

/-- Whether a span with a key is visited before another: by key, then the narrower
one, then the one further left. -/
def precedes (a b : (Nat × Nat) × Score) : Bool :=
  let width := fun (x : (Nat × Nat) × Score) => x.1.2 - x.1.1
  b.2.rank < a.2.rank
    || (a.2.rank = b.2.rank
      && (width a < width b || (width a = width b && a.1.1 < b.1.1)))

/-- The span to visit next. -/
def State.top? (s : State) : Option ((Nat × Nat) × Score) :=
  s.keys.toList.foldl
    (fun best x =>
      match best with
      | none => some x
      | some b => if precedes x b then some x else some b)
    none

/-- Whether the start symbol is populated and no span promises anything better. -/
def State.isSettled (t : Task) (s : State) : Bool :=
  s.chart.isComplete t.grammar
    && match s.top? with
      | none => true
      | some (_, fom) => fom.isAtMost (s.chart.fom 0 s.chart.size t.grammar.start)

/-- What a turn of the search leaves. -/
inductive Turn where
  /-- The search goes on. -/
  | next (s : State)
  /-- The search is over. -/
  | halt (s : State)

/-- One turn: visit the span with the best key. -/
def step (p : SpanFirst) (t : Task) (s : State) : Turn :=
  if s.isSettled t then .halt s
  else
    match s.top? with
    | none => .halt s
    | some ((start, stop), fom) =>
      if 0 < p.maxVisits ∧ p.maxVisits ≤ s.work.visits then
        .halt { s with notices := s.notices.push (.spansStopped s.work.visits) }
      else
        let s := { s with
          keys := s.keys.erase (start, stop)
          work := { s.work with visits := s.work.visits + 1 }
          notices := s.notices.push (.spanVisited start stop fom) }
        let s := s.visit t p.maxLocal start stop
        let s := s.rekey t start stop
        .next (s.propagate t start stop)

/-- At most so many turns. -/
def run (p : SpanFirst) (t : Task) : (turns : Nat) → State → State
  | 0, s => s
  | turns + 1, s =>
    match p.step t s with
    | .next s => p.run t turns s
    | .halt s => s

/-- More visits than any search has: each raises a layer of the chart, which can happen
less than `2 ^ 32` times to a layer. -/
def turns (c : Chart) : Nat := c.numLayers * UInt32.size + 1

/-- The whole search. -/
def search (p : SpanFirst) (t : Task) : State :=
  let s : State := { chart := Chart.empty t.grammar t.sentence.size p.maxChain }
  let s := s.seed t p.maxLocal
  p.run t (turns s.chart) s

/-- Parse a sentence. -/
def parse (p : SpanFirst) (t : Task) : Report :=
  let s := p.search t
  let outcome := s.chart.outcome t.grammar
  { chart := s.chart
    outcome
    work := s.work
    notices := s.notices.push
      (.spansEnded t.sentence.size s.work.visits s.work.committed outcome)
    faulty := s.faulty }

end SpanFirst
end BestParse
