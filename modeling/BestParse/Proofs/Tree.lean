import BestParse.Chart.Tree
import BestParse.Proofs.Derivation

/-!
# Trees of derivations

A tree shows a derivation with the names of its symbols and the words of its leaves.  It
is judged by the grammar alone: `IsDerivation` asks for a production at every node,
`longestRun` counts nodes with one child that stand one above the other, and `score`
looks the productions up by name and adds their scores from the leaves up.

The tree of a derivation that obeys a task passes all of this.  In particular its score
is that of the derivation, since names belong to one symbol each and a built grammar has
no production twice.
-/

namespace BestParse

/-! ## What trees are judged by -/

namespace Tree

/-- Every node is a production of the grammar: a leaf of the word's lexicon entry, a node
with one child of the child's symbol, and a node with two children of theirs.  No node has
another number of children. -/
def IsDerivation (g : Grammar) : Tree → Prop
  | .leaf label word =>
    ∃ id, id < g.numProductions ∧ g.nonterminalName (g.production id).parent = label ∧
      (g.token? word).map .lexical = some (g.production id).expansion
  | .node label [child] =>
    child.IsDerivation g ∧
      ∃ id c, id < g.numProductions ∧ g.nonterminalName (g.production id).parent = label ∧
        (g.production id).expansion = .unary c ∧ g.nonterminalName c = child.label
  | .node label [left, right] =>
    left.IsDerivation g ∧ right.IsDerivation g ∧
      ∃ id l r, id < g.numProductions ∧ g.nonterminalName (g.production id).parent = label ∧
        (g.production id).expansion = .binary l r ∧ g.nonterminalName l = left.label ∧
        g.nonterminalName r = right.label
  | .node _ _ => False

/-- How many nodes with one child stand at the root, one above the other. -/
def run : Tree → Nat
  | .node _ [child] => child.run + 1
  | _ => 0

mutual

/-- The greatest number of nodes with one child that stand one above the other. -/
def longestRun : Tree → Nat
  | .leaf _ _ => 0
  | .node label children => max (run (.node label children)) (longestRunOfAll children)

/-- The greatest such number in several trees. -/
def longestRunOfAll : List Tree → Nat
  | [] => 0
  | t :: ts => max t.longestRun (longestRunOfAll ts)

end

end Tree

/-- The log-probability of the first of some productions whose parent has a name. -/
def Grammar.logprobOf? (g : Grammar) (ids : List ProductionId) (parent : String) :
    Option Score := do
  let parent ← g.nonterminal? parent
  let id ← ids.find? fun id => (g.production id).parent = parent
  some (g.production id).logprob

/-- The score of a tree, from its names and words alone.  Every node adds its production's
log-probability to the score of its child or to the sum of its children's scores. -/
def Tree.score (g : Grammar) : Tree → Option Score
  | .leaf label word => g.logprobOf? (g.lexicalWith (g.token? word)) label
  | .node label [child] => do
    let x ← child.score g
    let c ← g.nonterminal? child.label
    let logprob ← g.logprobOf? (g.unaryWithChild c) label
    some (logprob + x)
  | .node label [left, right] => do
    let x ← left.score g
    let y ← right.score g
    let l ← g.nonterminal? left.label
    let r ← g.nonterminal? right.label
    let logprob ← g.logprobOf? (g.binaryWithPair l r) label
    some (logprob + (x + y))
  | .node _ _ => none

/-! ## The tree of a derivation -/

namespace Derivation

/-- The derivation with names and words. -/
def tree (g : Grammar) (s : Sentence) : Derivation → Tree
  | .leaf id i => .leaf (g.nonterminalName (g.production id).parent) (s.word i)
  | .unary id c => .node (g.nonterminalName (g.production id).parent) [c.tree g s]
  | .binary id l r => .node (g.nonterminalName (g.production id).parent) [l.tree g s, r.tree g s]

theorem label_tree (g : Grammar) (s : Sentence) (D : Derivation) :
    (D.tree g s).label = g.nonterminalName (D.symbol g) := by
  cases D <;> rfl

theorem words_tree (g : Grammar) (s : Sentence) (D : Derivation) :
    (D.tree g s).words = D.positions.map s.word := by
  induction D with
  | leaf id i => rfl
  | unary id c ih => simp [tree, Tree.words, Tree.wordsOfAll, positions, ih]
  | binary id l r ihl ihr => simp [tree, Tree.words, Tree.wordsOfAll, positions, ihl, ihr]

theorem run_tree (g : Grammar) (s : Sentence) (D : Derivation) : (D.tree g s).run = D.depth := by
  induction D with
  | leaf id i => rfl
  | unary id c ih => simp [tree, Tree.run, depth, ih]
  | binary id l r ihl ihr => rfl

variable {t : Task} {chain : Nat}

theorem longestRun_tree {D : Derivation} (h : D.Obeys t chain) :
    (D.tree t.grammar t.sentence).longestRun ≤ chain := by
  have hrun := run_tree t.grammar t.sentence D
  have hdepth := depth_le_of_obeys h
  induction D with
  | leaf id i => exact Nat.zero_le _
  | unary id c ih =>
      have hchild := ih h.1 (run_tree _ _ c) (depth_le_of_obeys h.1)
      simp only [tree, Tree.longestRun, Tree.longestRunOfAll] at hrun ⊢
      omega
  | binary id l r ihl ihr =>
      have hleft := ihl h.1 (run_tree _ _ l) (depth_le_of_obeys h.1)
      have hright := ihr h.2.1 (run_tree _ _ r) (depth_le_of_obeys h.2.1)
      simp only [tree, Tree.longestRun, Tree.longestRunOfAll] at hrun ⊢
      omega

/-- The words of a derivation over the whole sentence are the sentence. -/
theorem words_tree_of_root {words : Array String}
    (hsentence : t.sentence = .ofWords t.grammar words) {D : Derivation} (h : D.Obeys t chain)
    (hstart : D.start = 0) (hstop : D.stop = t.sentence.size) :
    (D.tree t.grammar t.sentence).words = words.toList := by
  have hsize : t.sentence.size = words.size := by
    rw [hsentence]
    exact Array.size_map
  rw [words_tree, positions_of_obeys h, hstart, hstop, Nat.sub_zero, hsize,
    ← List.range_eq_range']
  refine List.ext_getElem ?_ fun i hi hi' => ?_
  · simp
  · have hlt : i < words.size := by simpa using hi'
    simp [hsentence, Sentence.ofWords, Sentence.word, hlt]

/-! ## The tree is a derivation -/

theorem token?_eq {words : Array String} (hsentence : t.sentence = .ofWords t.grammar words)
    {i : Nat} (hi : i < t.sentence.size) :
    t.sentence.token? i = t.grammar.token? (t.sentence.word i) := by
  have hlt : i < words.size := by
    rw [hsentence] at hi
    simpa [Sentence.size, Sentence.ofWords] using hi
  simp [hsentence, Sentence.ofWords, Sentence.token?, Sentence.word, hlt]

theorem isDerivation_tree {words : Array String}
    (hsentence : t.sentence = .ofWords t.grammar words) {D : Derivation} (h : D.Obeys t chain) :
    (D.tree t.grammar t.sentence).IsDerivation t.grammar := by
  induction D with
  | leaf id i =>
      obtain ⟨hi, hid, hword⟩ := h
      rw [token?_eq hsentence hi] at hword
      exact ⟨id, hid, rfl, hword⟩
  | unary id c ih =>
      obtain ⟨hc, -, hid, hexp, -, -⟩ := h
      exact ⟨ih hc, id, _, hid, rfl, hexp, (label_tree _ _ c).symm⟩
  | binary id l r ihl ihr =>
      obtain ⟨hl, hr, -, hid, hexp, -, -, -⟩ := h
      exact ⟨ihl hl, ihr hr, id, _, _, hid, rfl, hexp, (label_tree _ _ l).symm,
        (label_tree _ _ r).symm⟩

end Derivation

/-! ## The score of the tree -/

/-- A name belongs to one symbol. -/
theorem Grammar.nonterminal?_nonterminalName {g : Grammar} {nt : NonTerminal}
    (hnt : nt < g.numNonterminals) : g.nonterminal? (g.nonterminalName nt) = some nt := by
  refine SymbolTable.find?_eq_some_iff.2 ?_
  change nt < g.nonterminals.names.size at hnt
  simp [Grammar.nonterminalName, SymbolTable.name, hnt]

/-- Among productions that expand alike, a parent's name finds the production. -/
theorem Grammar.logprobOf?_eq_some {d : Draft} {g : Grammar} (hbuild : d.build = .ok g)
    {ids : List ProductionId} {id : ProductionId} (hid : id ∈ ids)
    (hids : ∀ id' ∈ ids, id' < g.numProductions ∧
      (g.production id').expansion = (g.production id).expansion) :
    g.logprobOf? ids (g.nonterminalName (g.production id).parent) =
      some (g.production id).logprob := by
  have hlt := (hids id hid).1
  have hfind : ids.find? (fun id' => (g.production id').parent = (g.production id).parent) =
      some id := by
    cases hcase : ids.find? fun id' => (g.production id').parent = (g.production id).parent with
    | none => simpa using List.find?_eq_none.1 hcase id hid
    | some id' =>
        have hparent : (g.production id').parent = (g.production id).parent := by
          simpa using List.find?_some hcase
        obtain ⟨hlt', hexp⟩ := hids id' (List.mem_of_find?_eq_some hcase)
        rw [eq_of_production_eq hbuild hlt' hlt hparent hexp]
  simp [Grammar.logprobOf?, hfind,
    Grammar.nonterminal?_nonterminalName ((wellFormed_of_build hbuild).parent_lt id hlt)]

/-- Reading names back gives the score of the derivation. -/
theorem Derivation.score_tree {d : Draft} {t : Task} {chain : Nat} {words : Array String}
    (hbuild : d.build = .ok t.grammar) (hsentence : t.sentence = .ofWords t.grammar words)
    {D : Derivation} (h : D.Obeys t chain) {x : Score} (hx : D.score t.grammar = some x) :
    (D.tree t.grammar t.sentence).score t.grammar = some x := by
  have hg := wellFormed_of_build hbuild
  induction D generalizing x with
  | leaf id i =>
      obtain ⟨hi, hid, hword⟩ := h
      cases hx
      have hmem := hg.mem_lexicalWith.2 ⟨hid, hword⟩
      rw [tree, Tree.score, ← token?_eq hsentence hi]
      refine Grammar.logprobOf?_eq_some hbuild hmem fun id' hid' => ?_
      obtain ⟨hlt, hword'⟩ := hg.mem_lexicalWith.1 hid'
      exact ⟨hlt, Option.some.inj (hword'.symm.trans hword)⟩
  | unary id c ih =>
      obtain ⟨hc, -, hid, hexp, -, -⟩ := h
      obtain ⟨y, hy, hxy⟩ := score_unary_eq_some.1 hx
      obtain ⟨-, rfl⟩ := Score.extend_eq_some_iff.1 hxy
      have hlogprob := Grammar.logprobOf?_eq_some hbuild (hg.mem_unaryWithChild.2 ⟨hid, hexp⟩)
        fun id' hid' => by
          obtain ⟨hlt, hexp'⟩ := hg.mem_unaryWithChild.1 hid'
          exact ⟨hlt, hexp'.trans hexp.symm⟩
      have hchild := Grammar.nonterminal?_nonterminalName (symbol_lt_of_obeys hg hc)
      simp [tree, Tree.score, ih hc hy, label_tree, hchild, hlogprob]
  | binary id l r ihl ihr =>
      obtain ⟨hl, hr, -, hid, hexp, -, -, -⟩ := h
      obtain ⟨y, z, hy, hz, hxyz⟩ := score_binary_eq_some.1 hx
      obtain ⟨-, -, rfl⟩ := Score.combine_eq_some_iff.1 hxyz
      have hlogprob := Grammar.logprobOf?_eq_some hbuild (hg.mem_binaryWithPair.2 ⟨hid, hexp⟩)
        fun id' hid' => by
          obtain ⟨hlt, hexp'⟩ := hg.mem_binaryWithPair.1 hid'
          exact ⟨hlt, hexp'.trans hexp.symm⟩
      have hleft := Grammar.nonterminal?_nonterminalName (symbol_lt_of_obeys hg hl)
      have hright := Grammar.nonterminal?_nonterminalName (symbol_lt_of_obeys hg hr)
      simp [tree, Tree.score, ihl hl hy, ihr hr hz, label_tree, hleft, hright, hlogprob]

end BestParse
