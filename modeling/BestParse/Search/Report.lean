import BestParse.Limits
import BestParse.Merit
import BestParse.Chart.Tree
import BestParse.Score.Decimal

/-!
# Tasks and reports

A search is given a task and answers with a report: the chart it filled, whether
the sentence was parsed, counts of the work done, and the notices it wrote on
the way.

A search never stops half-way.  When it has to use a split point outside machine
words or a prior outside its table, the report is marked as `faulty` and its
other parts mean nothing.
-/

namespace BestParse

/-- What a search is given. -/
structure Task where
  grammar : Grammar
  sentence : Sentence
  limits : Limits := {}
  merit : Merit := Merit.inside

/-- Counts of the work of one search. -/
structure Work where
  /-- Candidate binary and unary edges made. -/
  built : Nat := 0
  /-- Edges stored in the chart. -/
  committed : Nat := 0
  /-- Entries taken into a queue. -/
  pushes : Nat := 0
  /-- Entries taken out of a queue. -/
  pops : Nat := 0
  /-- Spans visited. -/
  visits : Nat := 0
  /-- Edges made from waiting halves. -/
  completions : Nat := 0
deriving DecidableEq

/-- Whether the start symbol was derived over the whole sentence. -/
inductive Outcome where
  | parsed
  | noParse
deriving DecidableEq

/-- The outcome in words. -/
def Outcome.text : Outcome → String
  | .parsed => "Parsed"
  | .noParse => "NoParse"

/-- How far an edge search has come. -/
inductive Phase where
  | initializing
  | searching
  | done
  | exhausted
deriving DecidableEq

/-- The phase in words. -/
def Phase.text : Phase → String
  | .initializing => "Initializing"
  | .searching => "Searching"
  | .done => "Done"
  | .exhausted => "Exhausted"

/-- What a search says about itself. -/
inductive Notice where
  | bottomUpEnded (words built committed : Nat) (outcome : Outcome)
  | edgesStopped (pops : Nat)
  | edgesEnded (words : Nat) (phase : Phase) (pushes pops committed : Nat)
  | spanVisited (start stop : Nat) (fom : Score)
  | spansStopped (visits : Nat)
  | spansEnded (words visits committed : Nat) (outcome : Outcome)
deriving DecidableEq

namespace Notice

/-- Whether a notice is about a single step. -/
def isDetail : Notice → Bool
  | .spanVisited _ _ _ => true
  | _ => false

/-- The wording of a notice. -/
def text : Notice → String
  | .bottomUpEnded words built committed outcome =>
    "exhaustive parse of " ++ toString words ++ " words: " ++ toString built ++ " edges built, "
      ++ toString committed ++ " committed, " ++ outcome.text
  | .edgesStopped pops => "agenda stopped after " ++ toString pops ++ " pops"
  | .edgesEnded words phase pushes pops committed =>
    "agenda parse of " ++ toString words ++ " words: " ++ phase.text ++ ", " ++ toString pushes
      ++ " pushes, " ++ toString pops ++ " pops, " ++ toString committed ++ " committed"
  | .spanVisited start stop fom =>
    "visit (" ++ toString start ++ ", " ++ toString stop ++ ") best edge fom " ++ fom.text
  | .spansStopped visits => "coarse search stopped after " ++ toString visits ++ " visits"
  | .spansEnded words visits committed outcome =>
    "coarse parse of " ++ toString words ++ " words: " ++ toString visits ++ " spans visited, "
      ++ toString committed ++ " committed, " ++ outcome.text

end Notice

/-- The answer of a search. -/
structure Report where
  chart : Chart
  outcome : Outcome
  work : Work
  /-- The notices, in order. -/
  notices : Array Notice
  /-- Whether a number outside its range was used. -/
  faulty : Bool

/-- The outcome a chart shows. -/
def Chart.outcome (c : Chart) (g : Grammar) : Outcome :=
  if c.isComplete g then .parsed else .noParse

/-- The score of the best derivation, if the sentence was parsed. -/
def Report.score? (r : Report) (g : Grammar) : Option Score :=
  if r.outcome = .parsed then some (r.chart.rootInside g) else none

end BestParse
