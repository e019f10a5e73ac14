import BestParse.Proofs.Representation

/-!
# Trees and the scores reported with them

A binary edge is scored when it is made, and the tree is read when the search is over.  In
between a child may be raised: then the tree goes through the child's new derivation, while
the score reported is that of the edge as it was made.

As long as only improvements are committed the two drift apart in one direction only: the
tree scores at least what is reported, whatever the figure of merit (`score_le_tree`).  They
do drift apart, for a figure of merit as plain as a constant (`tree_outscores_report`).
-/

namespace BestParse
namespace Parser

open Chart

/-- When a parser that commits nothing but improvements has parsed a sentence, there is a tree,
and its score is at least the score reported. -/
theorem score_le_tree {d : Draft} {t : Task} (hbuild : d.build = .ok t.grammar)
    {words : Array String} (hsentence : t.sentence = .ofWords t.grammar words) (p : Parser)
    (himproves : p.CommitsImprovements) (hparsed : (p.parse t).1.outcome = .parsed) :
    ∃ tree x y, (p.parse t).1.chart.tree? t.grammar t.sentence = some tree ∧
      tree.score t.grammar = some x ∧ (p.parse t).1.score? t.grammar = some y ∧
      y.isAtMost x = true := by
  have hg := wellFormed_of_build hbuild
  have hcomplete := isComplete_of_parsed hg hparsed
  obtain ⟨es, hcourse⟩ := improving_parse (t := t) hg himproves
  obtain ⟨tree, x, htree, hx, hle⟩ := hcourse.rootInside_le_tree hbuild hsentence hcomplete
  refine ⟨tree, x, _, htree, hx, ?_, hle⟩
  rw [Report.score?, if_pos hparsed]

/-- A draft in which the better of two productions for the first two words comes second. -/
def lateDraft : Draft where
  start := some "S"
  rules := #[.binary "S" "X" "B" .certain, .binary "X" "A" "C" (.ofRatio true 2 1),
    .binary "X" "A" "D" (.ofRatio true 1 1), .lexical "A" "a" .certain,
    .lexical "C" "c" .certain, .lexical "D" "c" .certain, .lexical "B" "b" .certain]

/-- The grammar of that draft. -/
def lateGrammar : Grammar := lateDraft.build.toOption.get (by decide +kernel)

/-- Three words, with the same figure of merit for all edges. -/
def lateTask : Task where
  grammar := lateGrammar
  sentence := .ofWords lateGrammar #["a", "c", "b"]
  merit := { score := fun _ _ => .certain }

/-- Best-first search with the rule that compares scores. -/
def plainParser : Parser := .bestFirst (.new .scan .inside .stable)

theorem score_le_tree_late :
    ∃ tree x, (plainParser.parse lateTask).1.chart.tree? lateGrammar lateTask.sentence =
        some tree ∧ tree.score lateGrammar = some x ∧
        (Score.ofRatio true 2 1).isAtMost x = true := by
  have hparsed : (plainParser.parse lateTask).1.outcome = .parsed := by decide +kernel
  have hscore : (plainParser.parse lateTask).1.score? lateGrammar = some (.ofRatio true 2 1) := by
    decide +kernel
  obtain ⟨tree, x, y, htree, hx, hy, hle⟩ := score_le_tree (t := lateTask)
    (Draft.build_eq_ok _) rfl plainParser rfl hparsed
  cases hy.symm.trans hscore
  exact ⟨tree, x, htree, hx, hle⟩

/-- The worse production is taken first and makes the edge of the root; the better one raises
its child before the root is committed.  The tree scores one below zero, and two below zero is
reported. -/
theorem tree_outscores_report :
    lateGrammar.Discounting ∧ (plainParser.parse lateTask).1.outcome = .parsed ∧
    ((plainParser.parse lateTask).1.chart.tree? lateGrammar lateTask.sentence).bind
      (Tree.score lateGrammar) = some (.ofRatio true 1 1) ∧
    (plainParser.parse lateTask).1.score? lateGrammar = some (.ofRatio true 2 1) ∧
    ¬ (Score.ofRatio true 1 1).Agrees (.ofRatio true 2 1) := by
  refine ⟨?_, ?_, ?_, ?_, ?_⟩
  · unfold Grammar.Discounting
    decide +kernel
  · decide +kernel
  · decide +kernel
  · decide +kernel
  · unfold Score.Agrees
    decide +kernel

end Parser
end BestParse
