import BestParse.Parser
import BestParse.Session
import BestParse.Grammar.Written
import BestParse.Search.BottomUp.Workbench
import BestParse.Search.Queue.Heap
import BestParse.Proofs.Score.Order
import BestParse.Proofs.Score.Count
import BestParse.Proofs.Score.Decimal
import BestParse.Proofs.Text
import BestParse.Proofs.Grammar.Tables
import BestParse.Proofs.Grammar.WellFormed
import BestParse.Proofs.Grammar.Names
import BestParse.Proofs.Grammar.Reading
import BestParse.Proofs.Grammar.Reordered
import BestParse.Proofs.Grammar.Declarations
import BestParse.Proofs.Grammar.Listing
import BestParse.Proofs.Grammar.Repetitions
import BestParse.Proofs.Grammar.Layout
import BestParse.Proofs.Grammar.Faults
import BestParse.Proofs.Chart.Address
import BestParse.Proofs.Chart.Commit
import BestParse.Proofs.Chart.Coherence
import BestParse.Proofs.Derivation
import BestParse.Proofs.Chart.Exact
import BestParse.Proofs.Chart.Comparison
import BestParse.Proofs.BottomUp.Cell
import BestParse.Proofs.BottomUp.Discovery
import BestParse.Proofs.BottomUp.Exact
import BestParse.Proofs.BottomUp.Viterbi
import BestParse.Proofs.BottomUp.Relaxed
import BestParse.Proofs.BestFirst.Frontier
import BestParse.Proofs.BestFirst.Queue
import BestParse.Proofs.BestFirst.Steps
import BestParse.Proofs.Queue.History
import BestParse.Proofs.Queue.Arranged
import BestParse.Proofs.Queue.Stamped
import BestParse.Proofs.Queue.Tables
import BestParse.Proofs.BestFirst.Termination
import BestParse.Proofs.Loop
import BestParse.Proofs.BestFirst.Halting
import BestParse.Proofs.BestFirst.Coverage
import BestParse.Proofs.BestFirst.Honest
import BestParse.Proofs.BestFirst.Exact
import BestParse.Proofs.BestFirst.Root
import BestParse.Proofs.BestFirst.Word
import BestParse.Proofs.Tree
import BestParse.Proofs.BottomUp.Reordered
import BestParse.Proofs.Chart.Licensed
import BestParse.Proofs.Chart.Course
import BestParse.Proofs.Chart.Log
import BestParse.Proofs.Chart.Standing
import BestParse.Proofs.Chart.Places
import BestParse.Proofs.Chart.Frame
import BestParse.Proofs.Chart.Records
import BestParse.Proofs.Chart.Reach
import BestParse.Proofs.Chart.Reading
import BestParse.Proofs.BottomUp.Trees
import BestParse.Proofs.BottomUp.Log
import BestParse.Proofs.BottomUp.Filler
import BestParse.Proofs.BottomUp.Commits
import BestParse.Proofs.BottomUp.Walk
import BestParse.Proofs.BottomUp.Closure
import BestParse.Proofs.BottomUp.Schedule
import BestParse.Proofs.BottomUp.ExtentTables
import BestParse.Proofs.BestFirst.Course
import BestParse.Proofs.BestFirst.Closure
import BestParse.Proofs.BestFirst.Trees
import BestParse.Proofs.BestFirst.Ghosts
import BestParse.Proofs.BestFirst.Merits
import BestParse.Proofs.BestFirst.Memo
import BestParse.Proofs.BestFirst.Log
import BestParse.Proofs.BestFirst.Order
import BestParse.Proofs.BestFirst.Accounts
import BestParse.Proofs.BestFirst.Arrangement
import BestParse.Proofs.BestFirst.Lockstep
import BestParse.Proofs.BestFirst.Buffered
import BestParse.Proofs.SpanFirst.Steps
import BestParse.Proofs.SpanFirst.Course
import BestParse.Proofs.SpanFirst.Keys
import BestParse.Proofs.SpanFirst.Visits
import BestParse.Proofs.SpanFirst.Halting
import BestParse.Proofs.SpanFirst.Schedule
import BestParse.Proofs.SpanFirst.Ratings
import BestParse.Proofs.SpanFirst.Root
import BestParse.Proofs.SpanFirst.Progress
import BestParse.Proofs.SpanFirst.Trees
import BestParse.Proofs.SpanFirst.Log
import BestParse.Proofs.SpanFirst.Buffered
import BestParse.Proofs.Parser
import BestParse.Proofs.Session
import BestParse.Proofs.Outcome
import BestParse.Proofs.Representation
import BestParse.Proofs.Drift
import BestParse.Proofs.Compliance
import BestParse.Proofs.Relimiting
import BestParse.Proofs.Modesty
import BestParse.Proofs.WordSpans
import BestParse.Proofs.Widths
