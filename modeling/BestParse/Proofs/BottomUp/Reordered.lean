import Mathlib.Data.List.Nodup
import BestParse.Proofs.Tree
import BestParse.Proofs.BottomUp.Viterbi
import BestParse.Proofs.Chart.Comparison
import BestParse.Proofs.Grammar.Reordered

/-!
# The order of the rules

Drafts that differ in the order of their rules give grammars that renumber each other.  Over
the same words and limits, each derivation of the one task has a *counterpart* of the other:
the tree with the productions of the same rules (`Derivation.exists_counterpart`).  It covers
the same words, its symbol has the same name, and its score is the same number, since the
same scores are added in the same order.

So slots whose symbols have one name carry over both ways, and bottom-up search scores them
alike (`BottomUp.reordered_parse`).  The numbers, the lists, the backpointers and the choice
among derivations that score alike may all be different.
-/

namespace BestParse

/-- Two tasks give the same words and limits to grammars that say the same by name. -/
structure Task.Renumbers (t t' : Task) (words : Array String) : Prop where
  wellFormed : t.grammar.WellFormed
  wellFormed' : t'.grammar.WellFormed
  grammar : t.grammar.Renumbers t'.grammar
  sentence : t.sentence = .ofWords t.grammar words
  sentence' : t'.sentence = .ofWords t'.grammar words
  limits : t.limits = t'.limits

namespace Task.Renumbers

variable {t t' : Task} {words : Array String}

theorem symm (h : t.Renumbers t' words) : t'.Renumbers t words :=
  ⟨h.wellFormed', h.wellFormed, h.grammar.symm, h.sentence', h.sentence, h.limits.symm⟩

theorem size_eq (h : t.Renumbers t' words) : t.sentence.size = words.size := by
  simp [h.sentence, Sentence.ofWords, Sentence.size]

theorem word_eq (h : t.Renumbers t' words) (i : Nat) : t.sentence.word i = t'.sentence.word i := by
  rw [h.sentence, h.sentence']
  rfl

theorem allows (h : t.Renumbers t' words) {start stop : Nat} {nt nt' : NonTerminal}
    (hnt : nt < t.grammar.numNonterminals) (hnt' : nt' < t'.grammar.numNonterminals)
    (hname : t'.grammar.nonterminalName nt' = t.grammar.nonterminalName nt)
    (hallows : t.limits.allows t.grammar start stop nt = true) :
    t'.limits.allows t'.grammar start stop nt' = true := by
  rw [Limits.allows, ← h.limits, ← h.grammar.factored nt nt' hnt hnt' hname.symm]
  exact hallows

end Task.Renumbers

namespace Derivation

/-- Two derivations of grammars that renumber each other show the same by name. -/
structure Matches (g g' : Grammar) (D D' : Derivation) : Prop where
  start_eq : D'.start = D.start
  stop_eq : D'.stop = D.stop
  depth_eq : D'.depth = D.depth
  name_eq : g'.nonterminalName (D'.symbol g') = g.nonterminalName (D.symbol g)
  score_eq : D'.score g' = D.score g

variable {t t' : Task} {words : Array String} {chain : Nat}

theorem exists_leaf (h : t.Renumbers t' words) {id : ProductionId} {i : Nat}
    (hD : (leaf id i).Obeys t chain) :
    ∃ D' : Derivation, D'.Obeys t' chain ∧ Matches t.grammar t'.grammar (leaf id i) D' := by
  obtain ⟨hi, hid, hword⟩ := hD
  have hi' : i < t'.sentence.size := by rwa [h.symm.size_eq, ← h.size_eq]
  obtain ⟨w, hw, hexp⟩ := Option.map_eq_some_iff.1 hword
  obtain ⟨id', hid', hrule⟩ := h.grammar.exists_production hid
  rw [Grammar.rule, Grammar.rule, Production.rule_eq_lexical_iff.2 ⟨w, hexp.symm, rfl, rfl, rfl⟩,
    Production.rule_eq_lexical_iff] at hrule
  obtain ⟨w', hexp', hparent, hname, hlogprob⟩ := hrule
  have hscoped := h.wellFormed'.children_scoped id' hid'
  rw [hexp'] at hscoped
  have htoken : t'.sentence.token? i = some w' := by
    rw [token?_eq h.sentence' hi', ← h.word_eq]
    refine h.grammar.token?_eq_some ?_ hscoped hname
    rw [← token?_eq h.sentence hi]
    exact hw
  refine ⟨.leaf id' i, ⟨hi', hid', ?_⟩, rfl, rfl, rfl, hparent, congrArg some hlogprob⟩
  rw [htoken, hexp']
  rfl

theorem exists_unary (h : t.Renumbers t' words) {id : ProductionId} {c c' : Derivation}
    (hD : (unary id c).Obeys t chain) (hc' : c'.Obeys t' chain)
    (hmatch : Matches t.grammar t'.grammar c c') :
    ∃ D' : Derivation, D'.Obeys t' chain ∧ Matches t.grammar t'.grammar (unary id c) D' := by
  obtain ⟨-, hdepth, hid, hexp, hopen, hallows⟩ := hD
  obtain ⟨id', hid', hrule⟩ := h.grammar.exists_production hid
  rw [Grammar.rule, Grammar.rule, Production.rule_eq_unary_iff.2 ⟨_, hexp, rfl, rfl, rfl⟩,
    Production.rule_eq_unary_iff] at hrule
  obtain ⟨k, hexp', hparent, hname, hlogprob⟩ := hrule
  have hk : k < t'.grammar.numNonterminals := by
    have hscoped := h.wellFormed'.children_scoped id' hid'
    rwa [hexp'] at hscoped
  have hchild : k = c'.symbol t'.grammar :=
    SymbolTable.eq_of_name_eq hk (symbol_lt_of_obeys h.wellFormed' hc')
      (hname.trans hmatch.name_eq.symm)
  refine ⟨.unary id' c', ⟨hc', ?_, hid', hchild ▸ hexp', ?_, ?_⟩, hmatch.start_eq, hmatch.stop_eq,
    congrArg Nat.succ hmatch.depth_eq, hparent, ?_⟩
  · rw [hmatch.depth_eq]
    exact hdepth
  · rw [hmatch.start_eq, hmatch.stop_eq, ← h.limits]
    exact hopen
  · rw [hmatch.start_eq, hmatch.stop_eq]
    exact h.allows (h.wellFormed.parent_lt id hid) (h.wellFormed'.parent_lt id' hid') hparent
      hallows
  · rw [score, score, hmatch.score_eq, hlogprob]

theorem exists_binary (h : t.Renumbers t' words) {id : ProductionId} {l r l' r' : Derivation}
    (hD : (binary id l r).Obeys t chain) (hl' : l'.Obeys t' chain) (hr' : r'.Obeys t' chain)
    (hleft : Matches t.grammar t'.grammar l l') (hright : Matches t.grammar t'.grammar r r') :
    ∃ D' : Derivation, D'.Obeys t' chain ∧ Matches t.grammar t'.grammar (binary id l r) D' := by
  obtain ⟨-, -, hmeet, hid, hexp, hopen, hsplit, hallows⟩ := hD
  obtain ⟨id', hid', hrule⟩ := h.grammar.exists_production hid
  rw [Grammar.rule, Grammar.rule, Production.rule_eq_binary_iff.2 ⟨_, _, hexp, rfl, rfl, rfl, rfl⟩,
    Production.rule_eq_binary_iff] at hrule
  obtain ⟨j, k, hexp', hparent, hnamel, hnamer, hlogprob⟩ := hrule
  have hscoped := h.wellFormed'.children_scoped id' hid'
  rw [hexp'] at hscoped
  have hj : j = l'.symbol t'.grammar :=
    SymbolTable.eq_of_name_eq hscoped.1 (symbol_lt_of_obeys h.wellFormed' hl')
      (hnamel.trans hleft.name_eq.symm)
  have hk : k = r'.symbol t'.grammar :=
    SymbolTable.eq_of_name_eq hscoped.2 (symbol_lt_of_obeys h.wellFormed' hr')
      (hnamer.trans hright.name_eq.symm)
  subst hj hk
  refine ⟨.binary id' l' r', ⟨hl', hr', ?_, hid', hexp', ?_, ?_, ?_⟩, hleft.start_eq,
    hright.stop_eq, rfl, hparent, ?_⟩
  · rw [hleft.stop_eq, hright.start_eq]
    exact hmeet
  · rw [hleft.start_eq, hright.stop_eq, ← h.limits]
    exact hopen
  · rw [hleft.start_eq, hleft.stop_eq, hright.stop_eq, ← h.limits]
    exact hsplit
  · rw [hleft.start_eq, hright.stop_eq]
    exact h.allows (h.wellFormed.parent_lt id hid) (h.wellFormed'.parent_lt id' hid') hparent
      hallows
  · rw [score, score, hleft.score_eq, hright.score_eq, hlogprob]

/-- Each derivation has one of the same rules over the same words. -/
theorem exists_counterpart (h : t.Renumbers t' words) {D : Derivation} (hD : D.Obeys t chain) :
    ∃ D' : Derivation, D'.Obeys t' chain ∧ Matches t.grammar t'.grammar D D' := by
  induction D with
  | leaf id i => exact exists_leaf h hD
  | unary id c ih =>
      obtain ⟨c', hc', hmatch⟩ := ih hD.1
      exact exists_unary h hD hc' hmatch
  | binary id l r ihl ihr =>
      obtain ⟨l', hl', hleft⟩ := ihl hD.1
      obtain ⟨r', hr', hright⟩ := ihr hD.2.1
      exact exists_binary h hD hl' hr' hleft hright

end Derivation

/-- Slots of one name carry over. -/
theorem Task.Renumbers.carries {t t' : Task} {words : Array String} (h : t.Renumbers t' words)
    (chain start stop : Nat) {nt nt' : NonTerminal} (hnt' : nt' < t'.grammar.numNonterminals)
    (hname : t'.grammar.nonterminalName nt' = t.grammar.nonterminalName nt) :
    Slot.Carries t chain ⟨start, stop, nt⟩ t' chain ⟨start, stop, nt'⟩ := by
  intro D hD hslot
  injection hslot with hstart hstop hsymbol
  obtain ⟨D', hD', hmatch⟩ := Derivation.exists_counterpart h hD
  have hsymbol' : D'.symbol t'.grammar = nt' :=
    SymbolTable.eq_of_name_eq (Derivation.symbol_lt_of_obeys h.wellFormed' hD') hnt'
      (hmatch.name_eq.trans (hsymbol ▸ hname.symm))
  refine ⟨D', hD', ?_, hmatch.score_eq⟩
  rw [Derivation.slot, hmatch.start_eq, hmatch.stop_eq, hsymbol', hstart, hstop]

namespace Chart.Exact

variable {t t' : Task} {words : Array String} {chain : Nat} {c c' : Chart}

theorem nodup_names (h : c.Exact t chain) {start stop : Nat} (hspan : IsSpan c.size start stop) :
    ((c.populated start stop).map t.grammar.nonterminalName).Nodup := by
  refine List.Nodup.map_on ?_ (h.coherent.nodup _ _ hspan)
  intro nt hnt nt' hnt' hname
  rw [h.coherent.populated_iff _ _ _ hspan, h.isFor.symbols_eq] at hnt hnt'
  exact SymbolTable.eq_of_name_eq hnt.1 hnt'.1 hname

theorem name_mem_of_renumbers (h : c.Exact t chain) (h' : c'.Exact t' chain)
    (hrenumbers : t.Renumbers t' words) {start stop : Nat} (hspan : IsSpan words.size start stop)
    {name : String} (hmem : name ∈ (c.populated start stop).map t.grammar.nonterminalName) :
    name ∈ (c'.populated start stop).map t'.grammar.nonterminalName := by
  have hspan₁ : IsSpan c.size start stop := by rwa [h.isFor.size_eq, hrenumbers.size_eq]
  have hspan₂ : IsSpan c'.size start stop := by rwa [h'.isFor.size_eq, hrenumbers.symm.size_eq]
  obtain ⟨nt, hnt, rfl⟩ := List.mem_map.1 hmem
  have hlt := ((h.coherent.populated_iff _ _ _ hspan₁).1 hnt).1
  rw [h.isFor.symbols_eq] at hlt
  obtain ⟨nt', hlt', hname⟩ := hrenumbers.grammar.exists_nonterminal hlt
  rw [← hname]
  refine List.mem_map_of_mem (h.mem_populated_of_carries h' hrenumbers.wellFormed' hspan₁ hspan₂ ?_
    (hrenumbers.carries chain start stop hlt' hname) hnt)
  rwa [h'.isFor.symbols_eq]

/-- The populated nonterminals have the same names. -/
theorem names_perm (h : c.Exact t chain) (h' : c'.Exact t' chain)
    (hrenumbers : t.Renumbers t' words) {start stop : Nat} (hspan : IsSpan words.size start stop) :
    ((c.populated start stop).map t.grammar.nonterminalName).Perm
      ((c'.populated start stop).map t'.grammar.nonterminalName) := by
  rw [List.perm_ext_iff_of_nodup
    (h.nodup_names (by rwa [h.isFor.size_eq, hrenumbers.size_eq]))
    (h'.nodup_names (by rwa [h'.isFor.size_eq, hrenumbers.symm.size_eq]))]
  intro name
  exact ⟨h.name_mem_of_renumbers h' hrenumbers hspan,
    h'.name_mem_of_renumbers h hrenumbers.symm hspan⟩

/-- A slot scores the same by name. -/
theorem agrees_of_renumbers (h : c.Exact t chain) (h' : c'.Exact t' chain)
    (hrenumbers : t.Renumbers t' words) {start stop : Nat} (hspan : IsSpan words.size start stop)
    {nt nt' : NonTerminal} (hnt : nt < t.grammar.numNonterminals)
    (hnt' : nt' < t'.grammar.numNonterminals)
    (hname : t'.grammar.nonterminalName nt' = t.grammar.nonterminalName nt) :
    (c.inside start stop nt).Agrees (c'.inside start stop nt') := by
  have hspan₁ : IsSpan t.sentence.size start stop := hrenumbers.size_eq ▸ hspan
  have hspan₂ : IsSpan t'.sentence.size start stop := hrenumbers.symm.size_eq ▸ hspan
  rw [inside_eq, inside_eq]
  exact h.agrees_of_carries h' hrenumbers.wellFormed hrenumbers.wellFormed'
    (h.isFor.hasTarget_mk hspan₁ hnt (Nat.zero_le _)).1
    (h'.isFor.hasTarget_mk hspan₂ hnt' (Nat.zero_le _)).1
    (hrenumbers.carries chain start stop hnt' hname)
    (hrenumbers.symm.carries chain start stop hnt hname.symm)

theorem parsed_of_renumbers (h : c.Exact t chain) (h' : c'.Exact t' chain)
    (hrenumbers : t.Renumbers t' words) (hparsed : c.outcome t.grammar = .parsed) :
    c'.outcome t'.grammar = .parsed := by
  have hsize : t'.sentence.size = t.sentence.size :=
    hrenumbers.symm.size_eq.trans hrenumbers.size_eq.symm
  refine h.parsed_of_carries h' hrenumbers.wellFormed hrenumbers.wellFormed' hsize ?_ hparsed
  rw [Task.root, Task.root, hsize]
  exact hrenumbers.carries chain 0 t.sentence.size hrenumbers.wellFormed'.start_lt
    hrenumbers.grammar.start.symm

end Chart.Exact

namespace BottomUp

/-- The order of the rules decides neither whether a grammar is built nor, by name, what is
populated, how it scores and whether a sentence is parsed, whatever the discoveries. -/
theorem reordered_parse {d d' : Draft} (hreorders : d.Reorders d') :
    ((∃ g, d.build = .ok g) ↔ ∃ g', d'.build = .ok g') ∧
    ∀ t t' : Task, d.build = .ok t.grammar → d'.build = .ok t'.grammar →
      ∀ words, t.sentence = .ofWords t.grammar words → t'.sentence = .ofWords t'.grammar words →
        t.limits = t'.limits → ∀ b b' : BottomUp, b.maxChain = b'.maxChain →
      (b.parse t).1.outcome = (b'.parse t').1.outcome ∧
      (b.parse t).1.faulty = (b'.parse t').1.faulty ∧
      (∀ name, name ∈ t.grammar.nonterminals.names ↔ name ∈ t'.grammar.nonterminals.names) ∧
      ∀ start stop, IsSpan words.size start stop →
        (((b.parse t).1.chart.populated start stop).map t.grammar.nonterminalName).Perm
          (((b'.parse t').1.chart.populated start stop).map t'.grammar.nonterminalName) ∧
        ∀ name nt nt', t.grammar.nonterminal? name = some nt →
          t'.grammar.nonterminal? name = some nt' →
          ((b.parse t).1.chart.inside start stop nt).Agrees
            ((b'.parse t').1.chart.inside start stop nt') := by
  refine ⟨hreorders.exists_build_iff, ?_⟩
  intro t t' hbuild hbuild' words hsentence hsentence' hlimits b b' hchain
  have hrenumbers : t.Renumbers t' words :=
    ⟨wellFormed_of_build hbuild, wellFormed_of_build hbuild', hreorders.renumbers hbuild hbuild',
      hsentence, hsentence', hlimits⟩
  have hexact := exact_parse (t := t) b hrenumbers.wellFormed
  have hexact' := exact_parse (t := t') b' hrenumbers.wellFormed'
  rw [← hchain] at hexact'
  refine ⟨?_, ?_, hrenumbers.grammar.nonterminals, fun start stop hspan => ⟨?_, ?_⟩⟩
  · exact Outcome.eq_of_parsed_iff ⟨hexact.parsed_of_renumbers hexact' hrenumbers,
      hexact'.parsed_of_renumbers hexact hrenumbers.symm⟩
  · refine (faulty_run t b.maxChain b.discovery).trans
      (Eq.trans ?_ (faulty_run t' b'.maxChain b'.discovery).symm)
    rw [hrenumbers.size_eq, hrenumbers.symm.size_eq, hlimits]
  · exact hexact.names_perm hexact' hrenumbers hspan
  · intro name nt nt' hnt hnt'
    have hget := SymbolTable.find?_eq_some_iff.1 hnt
    have hget' := SymbolTable.find?_eq_some_iff.1 hnt'
    exact hexact.agrees_of_renumbers hexact' hrenumbers hspan
      (Array.getElem?_eq_some_iff.1 hget).1 (Array.getElem?_eq_some_iff.1 hget').1
      ((SymbolTable.name_eq_of_getElem? hget').trans (SymbolTable.name_eq_of_getElem? hget).symm)

/-- A draft whose unary productions go in a circle, with its rules in the opposite order. -/
def turnedDraft : Draft := { circularDraft with rules := circularDraft.rules.reverse }

/-- Two words of a grammar of that draft. -/
def turnedTask : Task where
  grammar := turnedDraft.build.toOption.get (by decide +kernel)
  sentence := .ofWords (turnedDraft.build.toOption.get (by decide +kernel)) #["a", "a"]

/-- Turned round, the rules give both words the score they gave before. -/
theorem reordered_parse_turned :
    ((BottomUp.mk .extents 2 {}).parse turnedTask).1.outcome = .parsed ∧
    (((BottomUp.mk .extents 2 {}).parse turnedTask).1.chart.inside 0 2 0).Agrees
      (.ofWholeUnits (-9)) := by
  have hreorders : turnedDraft.Reorders circularDraft :=
    ⟨rfl, by decide +kernel, fun _ => Iff.rfl⟩
  have hparsed : ((BottomUp.mk .pairs 2 {}).parse circularTask).1.outcome = .parsed := by
    decide +kernel
  have hvalue : ((BottomUp.mk .pairs 2 {}).parse circularTask).1.chart.inside 0 2 0 =
      .ofWholeUnits (-9) := by decide +kernel
  have h := (reordered_parse hreorders).2 turnedTask circularTask (Draft.build_eq_ok _)
    circularDraft_builds #["a", "a"] rfl rfl rfl (.mk .extents 2 {}) (.mk .pairs 2 {}) rfl
  have hroot := (h.2.2.2 0 2 (by decide)).2 "S" 0 0 (by decide +kernel) (by decide +kernel)
  rw [hvalue] at hroot
  exact ⟨h.1.trans hparsed, hroot⟩

end BottomUp
end BestParse
