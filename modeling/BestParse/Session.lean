import BestParse.Parser
import BestParse.Search.BottomUp.Filler
import BestParse.Search.BestFirst.Buffered
import BestParse.Search.SpanFirst.Buffered

/-!
# Sessions

A session is a parser at work on one sentence after another.  It keeps the buffers of the search
between sentences, as the last one left them, whether the search ended by itself or was stopped.
-/

namespace BestParse

/-- A parser of any kind with its buffers. -/
inductive Desk where
  | bottomUp (d : BottomUp.Desk)
  | bestFirst (d : BestFirst.Desk)
  | spanFirst (d : SpanFirst.Desk)

/-- A parser at work with one grammar. -/
structure Session where
  grammar : Grammar
  desk : Desk

/-- A sentence to parse, with its limits and its figure of merit. -/
structure Job where
  sentence : Sentence
  limits : Limits := {}
  merit : Merit := Merit.inside

/-- The task of a job. -/
def Job.task (j : Job) (grammar : Grammar) : Task := { j with grammar }

namespace Session

/-- A parser with new buffers. -/
def start (grammar : Grammar) : Parser → Session
  | .bottomUp b => ⟨grammar, .bottomUp b.desk⟩
  | .bestFirst b => ⟨grammar, .bestFirst { parser := b }⟩
  | .spanFirst p => ⟨grammar, .spanFirst (p.desk grammar)⟩

/-- Parse a sentence. -/
def parse (s : Session) (job : Job) : Report × Session :=
  let t := job.task s.grammar
  match s.desk with
  | .bottomUp d =>
    let (report, d) := d.parse t
    (report, { s with desk := .bottomUp d })
  | .bestFirst d =>
    let (report, d) := d.parse t
    (report, { s with desk := .bestFirst d })
  | .spanFirst d =>
    let (report, d) := d.parse t
    (report, { s with desk := .spanFirst d })

/-- The session after some sentences. -/
def after (s : Session) (earlier : List Job) : Session :=
  earlier.foldl (fun s job => (s.parse job).2) s

/-! ## What can be inspected between sentences -/

/-- How many productions the extents ruled out, where there are extents. -/
def skipped? (s : Session) : Option Nat :=
  match s.desk with
  | .bottomUp ⟨.extents x, _⟩ => some x.skipped
  | _ => none

/-- How many ghosts wait, where there are ghosts. -/
def ghosts? (s : Session) : Option Nat :=
  match s.desk with
  | .bestFirst d => d.parser.frontier.ghosts?
  | _ => none

/-- How many edges wait, where there is a queue. -/
def queued? (s : Session) : Option Nat :=
  match s.desk with
  | .bestFirst d => some d.parser.queue.size
  | _ => none

/-- How many edges the queue declined, where it declines any. -/
def suppressed? (s : Session) : Option Nat :=
  match s.desk with
  | .bestFirst d => d.parser.queue.suppressed?
  | _ => none

/-- How far the last parse came, where this is recorded. -/
def phase? (s : Session) : Option Phase :=
  match s.desk with
  | .bestFirst d => some d.parser.phase
  | _ => none

/-- The queue operations of the last parse, where they are recorded. -/
def history? (s : Session) : Option (Array QueueEvent) :=
  match s.desk with
  | .bestFirst d => some d.parser.history
  | _ => none

end Session
end BestParse
