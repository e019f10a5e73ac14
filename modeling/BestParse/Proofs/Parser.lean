import BestParse.Parser
import BestParse.Proofs.BottomUp.Trees
import BestParse.Proofs.BestFirst.Trees
import BestParse.Proofs.SpanFirst.Trees

/-!
# What parsers return

Every search fills a linked chart, so whatever the parser, its settings and the figure of
merit, the tree it returns is a derivation of the sentence (`parse_tree_valid`).

The score that is reported with the tree is that of the root's layer.  The tree may score
more, since it is read from the children as they are at the end.  It scores the same for the
*exact* parsers: bottom-up search, and the other searches when probabilities are at most one
and edges are rated by their scores (`parse_tree_attains`).
-/

namespace BestParse
namespace Parser

open Chart
open BestFirst (RatesInside)

/-- The longest run of unary productions over a span. -/
def maxChain : Parser → Nat
  | .bottomUp p => p.maxChain
  | .bestFirst p => p.maxChain
  | .spanFirst p => p.maxChain

/-- The trees of the parser have the scores it reports.  Best-first search may be stopped
early, and span-first search may admit any number of edges to a visit. -/
def IsExact (t : Task) : Parser → Prop
  | .bottomUp _ => True
  | .bestFirst _ => t.grammar.Discounting ∧ t.merit = .inside
  | .spanFirst p => t.grammar.Discounting ∧ t.merit = .inside ∧ p.maxVisits = 0

/-- The parser of a configuration has its bound on unary productions. -/
theorem maxChain_of_config (config : Config) : config.parser.maxChain = config.maxChain := by
  unfold Config.parser
  cases config.strategy <;> rfl

variable {t : Task}

/-- Every parser follows a course, and its chart shows the outcome. -/
theorem course_report (hg : t.grammar.WellFormed) (p : Parser) :
    (∃ es, Course t p.maxChain (fun _ _ => True) (p.parse t).1.chart es) ∧
      (p.parse t).1.outcome = (p.parse t).1.chart.outcome t.grammar := by
  cases p with
  | bottomUp b => exact ⟨⟨_, (BottomUp.improving_parse hg b).mono fun _ _ _ => trivial⟩, rfl⟩
  | bestFirst b =>
      exact BestFirst.course_parse hg b _ (fun _ _ _ => trivial) fun _ _ _ => trivial
  | spanFirst p =>
      obtain ⟨⟨es, hcourse⟩, houtcome⟩ := SpanFirst.improving_parse hg p
      exact ⟨⟨es, hcourse.mono fun _ _ _ => trivial⟩, houtcome⟩

/-- So its chart is linked. -/
theorem linked_report (hg : t.grammar.WellFormed) (p : Parser) :
    (p.parse t).1.chart.Linked t p.maxChain ∧
      (p.parse t).1.outcome = (p.parse t).1.chart.outcome t.grammar := by
  obtain ⟨⟨es, hcourse⟩, houtcome⟩ := course_report hg p
  exact ⟨(hcourse.linked hg).1, houtcome⟩

/-- The chart of a parsed sentence is complete. -/
theorem isComplete_of_parsed (hg : t.grammar.WellFormed) {p : Parser}
    (hparsed : (p.parse t).1.outcome = .parsed) :
    (p.parse t).1.chart.isComplete t.grammar = true := by
  rw [(linked_report hg p).2] at hparsed
  exact outcome_eq_parsed_iff.1 hparsed

/-- The tree of an exact parser has the score of the root. -/
theorem tree_attains_of_isExact {d : Draft} (hbuild : d.build = .ok t.grammar)
    {words : Array String} (hsentence : t.sentence = .ofWords t.grammar words) {p : Parser}
    (hexact : p.IsExact t) (hcomplete : (p.parse t).1.chart.isComplete t.grammar = true) :
    ∃ tree x, (p.parse t).1.chart.tree? t.grammar t.sentence = some tree ∧
      tree.score t.grammar = some x ∧ x.Agrees ((p.parse t).1.chart.rootInside t.grammar) := by
  cases p with
  | bottomUp b => exact BottomUp.tree_attains hbuild hsentence b hcomplete
  | bestFirst b =>
      obtain ⟨hneg, hmerit⟩ := hexact
      exact BestFirst.tree_attains hbuild hsentence hneg (BestFirst.ratesInside_of_merit hmerit) b hcomplete
  | spanFirst p =>
      obtain ⟨hneg, hmerit, hvisits⟩ := hexact
      exact SpanFirst.tree_attains hbuild hsentence hneg (BestFirst.ratesInside_of_merit hmerit) hvisits hcomplete

/-- The tree of a parse can always be read, and there is one exactly when the sentence was
parsed.  It is a derivation of the words from the start symbol, without longer runs of unary
productions than the parser allows. -/
theorem parse_tree_valid {d : Draft} {t : Task} (hbuild : d.build = .ok t.grammar)
    {words : Array String} (hsentence : t.sentence = .ofWords t.grammar words) (p : Parser) :
    (p.parse t).1.chart.traceRoot t.grammar t.sentence ≠ .broken ∧
    (((p.parse t).1.chart.tree? t.grammar t.sentence).isSome = true ↔
      (p.parse t).1.outcome = .parsed) ∧
    ∀ tree, (p.parse t).1.chart.tree? t.grammar t.sentence = some tree →
      tree.label = t.grammar.nonterminalName t.grammar.start ∧ tree.words = words.toList ∧
      tree.IsDerivation t.grammar ∧ tree.longestRun ≤ p.maxChain := by
  have hg := wellFormed_of_build hbuild
  obtain ⟨hlinked, houtcome⟩ := linked_report hg p
  rw [houtcome]
  exact hlinked.tree_valid hg hsentence

/-- Span-first search with one binary edge for each visit returns a tree over both words, also
with a circle of unary productions. -/
theorem parse_tree_valid_circular :
    ∃ tree, (Config.parse { strategy := .spanFirst, maxChain := 2, maxLocal := 1 }
        circularTask).chart.tree? circularTask.grammar circularTask.sentence = some tree ∧
      tree.label = "S" ∧ tree.words = ["a", "a"] ∧ tree.IsDerivation circularTask.grammar ∧
      tree.longestRun ≤ 2 := by
  have hparsed : (Config.parse { strategy := .spanFirst, maxChain := 2, maxLocal := 1 }
      circularTask).outcome = .parsed := by decide +kernel
  obtain ⟨-, hsome, hvalid⟩ := parse_tree_valid (t := circularTask) circularDraft_builds rfl
    (Config.parser { strategy := .spanFirst, maxChain := 2, maxLocal := 1 })
  obtain ⟨tree, htree⟩ := Option.isSome_iff_exists.1 (hsome.2 hparsed)
  obtain ⟨hlabel, hwords, hderives, hrun⟩ := hvalid tree htree
  rw [maxChain_of_config] at hrun
  exact ⟨tree, htree, hlabel.trans (by decide +kernel), hwords, hderives, hrun⟩

/-- When an exact parser has parsed a sentence, the score of its tree is the score it
reports. -/
theorem parse_tree_attains {d : Draft} {t : Task} (hbuild : d.build = .ok t.grammar)
    {words : Array String} (hsentence : t.sentence = .ofWords t.grammar words) (p : Parser)
    (hexact : p.IsExact t) (hparsed : (p.parse t).1.outcome = .parsed) :
    ∃ tree x y, (p.parse t).1.chart.tree? t.grammar t.sentence = some tree ∧
      tree.score t.grammar = some x ∧ (p.parse t).1.score? t.grammar = some y ∧ x.Agrees y := by
  have hcomplete := isComplete_of_parsed (wellFormed_of_build hbuild) hparsed
  obtain ⟨tree, x, htree, hx, hagree⟩ :=
    tree_attains_of_isExact hbuild hsentence hexact hcomplete
  refine ⟨tree, x, _, htree, hx, ?_, hagree⟩
  rw [Report.score?, if_pos hparsed]

/-- Best-first search with a memo queue that compares figures of merit returns a tree with the
score of the root. -/
theorem parse_tree_attains_circular :
    ∃ tree x, ((Parser.bestFirst { BestFirst.new .ghost .heuristic .memo with
        maxChain := 2 }).parse circularTask).1.chart.tree? circularTask.grammar
        circularTask.sentence = some tree ∧
      tree.score circularTask.grammar = some x ∧ x.Agrees (.ofWholeUnits (-9)) := by
  have hparsed : ((Parser.bestFirst { BestFirst.new .ghost .heuristic .memo with
      maxChain := 2 }).parse circularTask).1.outcome = .parsed := by decide +kernel
  have hvalue : ((Parser.bestFirst { BestFirst.new .ghost .heuristic .memo with
      maxChain := 2 }).parse circularTask).1.score? circularTask.grammar =
      some (.ofWholeUnits (-9)) := by decide +kernel
  obtain ⟨tree, x, y, htree, hx, hy, hagree⟩ := parse_tree_attains (t := circularTask)
    circularDraft_builds rfl (.bestFirst { BestFirst.new .ghost .heuristic .memo with
      maxChain := 2 }) ⟨by unfold Grammar.Discounting; decide +kernel, rfl⟩ hparsed
  cases hy.symm.trans hvalue
  exact ⟨tree, x, htree, hx, hagree⟩

end Parser
end BestParse
