import BestParse.Proofs.Chart.Standing
import BestParse.Proofs.Relimiting
import BestParse.Proofs.Modesty

/-!
# Spans of one word

Over one word there are no binary edges.  What stands there *climbs* from the word: a lexical
production, and unary productions above it, where the limits allow them (`Climbs`).  If the
limits forbid unary productions over the word, its cell lists the parents of its lexical
productions and nothing else.  Closing the span does not have this effect, or any other
(`Parser.word_spans`, `Parser.closed_word_climbs`).

That the parents of the lexical productions are all listed at the end is a matter of the log.
Every search seeds a word between two of its stages (`Parser.sows`), and no commit empties a
layer.
-/

namespace BestParse

open Chart

/-- A nonterminal that stands over the word at a position by so many unary productions, all of
them allowed there. -/
inductive Climbs (t : Task) (i : Nat) : Nat → NonTerminal → Prop where
  /-- A lexical production of the word. -/
  | word {id : ProductionId} (mem : id ∈ t.grammar.lexicalWith (t.sentence.token? i)) :
      Climbs t i 0 (t.grammar.production id).parent
  /-- A unary production. -/
  | unary {id : ProductionId} {child : NonTerminal} {depth : Nat}
      (child_climbs : Climbs t i depth child) (production_lt : id < t.grammar.numProductions)
      (expansion_eq : (t.grammar.production id).expansion = .unary child)
      (opens : t.limits.unaryOpen i (i + 1) = true)
      (allows : t.limits.allows t.grammar i (i + 1) (t.grammar.production id).parent = true) :
      Climbs t i (depth + 1) (t.grammar.production id).parent

variable {t : Task} {chain i : Nat} {c c' : Chart}

/-- Where unary productions are forbidden, nothing climbs above the lexical productions. -/
theorem Climbs.exists_lexical {depth : Nat} {nt : NonTerminal} (h : Climbs t i depth nt)
    (hclosed : t.limits.unaryOpen i (i + 1) = false ∨ depth = 0) :
    depth = 0 ∧ ∃ id ∈ t.grammar.lexicalWith (t.sentence.token? i),
      (t.grammar.production id).parent = nt := by
  cases h with
  | word mem => exact ⟨rfl, _, mem, rfl⟩
  | unary child_climbs production_lt expansion_eq opens allows =>
      rcases hclosed with hclosed | hdepth
      · rw [opens] at hclosed
        cases hclosed
      · cases hdepth

/-! ## What stands over a word -/

namespace Chart

/-- An edge over one word is not binary. -/
theorem Linked.climbs (h : c.Linked t chain) (hg : t.grammar.WellFormed) {x : Slot} {depth : Nat}
    (hword : x.stop = x.start + 1) (hτ : c.HasTarget ⟨x, depth⟩) {e : Edge}
    (he : (c.layerAt ⟨x, depth⟩).edge = some e) :
    e.kind = (if depth = 0 then .lexical else .unary) ∧ Climbs t x.start depth x.symbol := by
  induction depth using Nat.strongRecOn generalizing x e with
  | ind depth ih =>
      have hlicensed := h.licensed _ e hτ he
      have hleads := h.leads _ e hτ he
      have hkind := hlicensed.kind_eq
      cases h.target_eq _ e hτ he
      change e.stop = e.start + 1 at hword
      change _ ∧ Climbs t e.start e.layer e.parent
      unfold Edge.below at hleads
      rw [hlicensed.parent_eq]
      cases hexp : (t.grammar.production e.production).expansion with
      | lexical word =>
          obtain ⟨-, -, hlayer, htoken⟩ := hlicensed.fits_of hexp
          have hmem : e.production ∈ t.grammar.lexicalWith (t.sentence.token? e.start) :=
            hg.mem_lexicalWith.2 ⟨hlicensed.production_lt, by rw [htoken, hexp]; rfl⟩
          rw [hlayer, if_pos rfl, hkind, hexp]
          exact ⟨rfl, .word hmem⟩
      | unary child =>
          obtain ⟨-, hpos, -, hopens, hallows⟩ := hlicensed.fits_of hexp
          rw [hexp, List.forall_mem_singleton] at hleads
          obtain ⟨below, hbelow⟩ := Option.isSome_iff_exists.1 hleads
          rw [hword] at hopens hallows
          rw [hlicensed.parent_eq] at hallows
          have hchild := (ih (e.layer - 1) (Nat.sub_lt hpos Nat.one_pos)
            (x := ⟨e.start, e.stop, child⟩) hword (hlicensed.hasTarget_child hg h.isFor hexp)
            hbelow).2
          rw [if_neg (Nat.ne_of_gt hpos), hkind, hexp]
          refine ⟨rfl, ?_⟩
          rw [← Nat.sub_add_cancel hpos]
          exact hchild.unary hlicensed.production_lt hexp hopens hallows
      | binary l r =>
          obtain ⟨-, -, -, hmid, -⟩ := hlicensed.fits_of hexp
          obtain ⟨hlow, hhigh⟩ := Limits.splits_inside hmid
          omega

end Chart

/-! ## Words stay seeded -/

namespace Parser

/-- Replaying the log of a parser gives its chart. -/
theorem replay_commits (hg : t.grammar.WellFormed) (p : Parser) :
    (p.parse t).1.chart =
      (Chart.empty t.grammar t.sentence.size p.maxChain).replay t.grammar (p.commits t) := by
  cases p with
  | bottomUp b => exact (BottomUp.leads_parse hg b).chart_eq
  | bestFirst b => exact (b.replay_commits t).1
  | spanFirst p => exact (SpanFirst.leads_parse hg p).chart_eq

/-- What holds an edge where a parser rests holds one in the chart that it leaves. -/
theorem RestsAt.holds (hg : t.grammar.WellFormed) {p : Parser} (h : p.RestsAt t c) {τ : Target}
    (hholds : c.Holds τ) : (p.parse t).1.chart.Holds τ := by
  rw [replay_commits hg]
  exact IsStage.holds (h.isStage hg) hholds

/-- Between two of its stages a parser seeds the word at a position, and may then go on. -/
theorem sows (hg : t.grammar.WellFormed) (p : Parser) (hi : i < t.sentence.size) :
    ∃ c c' rest, p.RestsAt t c ∧ p.RestsAt t c' ∧
      c' = c.replay t.grammar
        (c.seedEdges t.grammar i (t.grammar.lexicalWith (t.sentence.token? i)) ++ rest) := by
  have hle := Nat.le_of_lt hi
  cases p with
  | bottomUp b =>
      have hcourse := (BottomUp.leads_words hg b.discovery (BottomUp.improving_start b) hle).1
      have hword := (BottomUp.leads_fillWord hg b.discovery hcourse hi).chart_eq
      refine ⟨_, _, _, .fillingWords b hle, .fillingWords b hi, Eq.trans ?_ hword⟩
      rw [List.range_succ, List.foldl_append, List.foldl_cons, List.foldl_nil]
  | bestFirst b =>
      have hword := (BestFirst.State.log_seedWord t
        ((List.range i).foldl (fun s i => s.seedWord t i) (b.start t)) i).1
      refine ⟨_, _, [], .seedingFirst b hle, .seedingFirst b hi, ?_⟩
      rw [List.range_succ, List.foldl_append, List.foldl_cons, List.foldl_nil, List.append_nil]
      exact hword
  | spanFirst p =>
      have horderly := (SpanFirst.Orderly.start t p.maxChain).words hg p.maxLocal i hle
      have hword := (SpanFirst.leads_seedWord hg horderly p.maxLocal hi).chart_eq
      refine ⟨_, _, _, .seedingSpans p hle, .seedingSpans p hi, Eq.trans ?_ hword⟩
      rw [SpanFirst.words_succ, SpanFirst.State.seedWord_eq]
      rfl

/-- In the chart that a parser leaves, the bottom layer of every parent of a lexical production
of a word holds an edge. -/
theorem holds_lexical (hg : t.grammar.WellFormed) (p : Parser) (hi : i < t.sentence.size)
    {id : ProductionId} (hid : id ∈ t.grammar.lexicalWith (t.sentence.token? i)) :
    (p.parse t).1.chart.Holds (Edge.lexical t.grammar id i).target := by
  obtain ⟨c, c', rest, hrests, hrests', rfl⟩ := sows hg p hi
  refine hrests'.holds hg ?_
  rw [replay_append]
  refine Holds.replay ?_ t.grammar rest
  obtain ⟨k, rfl⟩ := hrests.isStage hg
  have hfor := (isFor_empty t p.maxChain).replay ((p.commits t).take k)
  refine holds_seedEdges ((wellSized_empty _ _ _).replay _ _) ((sparse_empty _ _ _).replay _ _)
    (fun id hid => ?_) id hid
  obtain ⟨hlt, hword⟩ := hg.mem_lexicalWith.1 hid
  have hlicensed : (Edge.lexical t.grammar id i).Licensed t p.maxChain :=
    (Edge.licensed_lexical (c := p.chartAfter t k) hi hlt hword).1
  exact ⟨hlicensed.hasTarget hg hfor, Score.isReachable_of_isFinite (hg.finite id hlt)⟩

/-- Over one word a parser stores what climbs from the word, and its lexical productions in any
case.  Where unary productions are forbidden it stores nothing else.  Which spans of one word are
closed does not matter. -/
theorem word_spans {d : Draft} {t : Task} (hbuild : d.build = .ok t.grammar) (p : Parser)
    {i : Nat} (hi : i < t.sentence.size) :
    (∀ nt depth e, nt < t.grammar.numNonterminals → depth ≤ p.maxChain →
      (p.parse t).1.chart.layerEdge i (i + 1) nt depth = some e →
      e.kind = (if depth = 0 then .lexical else .unary) ∧ Climbs t i depth nt) ∧
    (∀ nt, nt ∈ (p.parse t).1.chart.populated i (i + 1) ↔ nt < t.grammar.numNonterminals ∧
      ∃ depth ≤ p.maxChain,
        ((p.parse t).1.chart.layerEdge i (i + 1) nt depth).isSome = true) ∧
    (∀ id ∈ t.grammar.lexicalWith (t.sentence.token? i),
      ((p.parse t).1.chart.layerEdge i (i + 1) (t.grammar.production id).parent 0).isSome =
        true) ∧
    (t.limits.unaryOpen i (i + 1) = false ∨ p.maxChain = 0 →
      (∀ nt depth e, nt < t.grammar.numNonterminals → depth ≤ p.maxChain →
        (p.parse t).1.chart.layerEdge i (i + 1) nt depth = some e → e.kind = .lexical) ∧
      ∀ nt, nt ∈ (p.parse t).1.chart.populated i (i + 1) ↔
        ∃ id ∈ t.grammar.lexicalWith (t.sentence.token? i),
          (t.grammar.production id).parent = nt) ∧
    ∀ closed, t.ClosesAlike closed → p.parse (t.closing closed) = p.parse t := by
  have hg := wellFormed_of_build hbuild
  obtain ⟨⟨es, hcourse⟩, -⟩ := course_report hg p
  obtain ⟨hlinked, -⟩ := hcourse.linked hg
  have hspan : IsSpan t.sentence.size i (i + 1) := ⟨Nat.lt_succ_self i, hi⟩
  have hclimbs : ∀ nt depth e, nt < t.grammar.numNonterminals → depth ≤ p.maxChain →
      (p.parse t).1.chart.layerEdge i (i + 1) nt depth = some e →
      e.kind = (if depth = 0 then .lexical else .unary) ∧ Climbs t i depth nt :=
    fun nt depth e hnt hdepth he => hlinked.climbs hg (x := ⟨i, i + 1, nt⟩) rfl
      (hlinked.isFor.hasTarget_mk hspan hnt hdepth) he
  have hlisted : ∀ nt, nt ∈ (p.parse t).1.chart.populated i (i + 1) ↔
      nt < t.grammar.numNonterminals ∧ ∃ depth ≤ p.maxChain,
        ((p.parse t).1.chart.layerEdge i (i + 1) nt depth).isSome = true := by
    intro nt
    rw [← hlinked.isFor.symbols_eq]
    refine hcourse.mem_populated_iff hg ?_
    rw [hlinked.isFor.size_eq]
    exact hspan
  have hlexical := fun id (hid : id ∈ t.grammar.lexicalWith (t.sentence.token? i)) =>
    holds_lexical hg p hi hid
  refine ⟨hclimbs, hlisted, hlexical, fun hforbids => ⟨fun nt depth e hnt hdepth he => ?_,
    fun nt => ⟨fun hmem => ?_, ?_⟩⟩, fun closed hclosed => parse_closing hg hclosed p⟩
  · obtain ⟨hkind, hclimb⟩ := hclimbs nt depth e hnt hdepth he
    have hbottom := (hclimb.exists_lexical (hforbids.imp_right fun hchain => by omega)).1
    rw [hkind, if_pos hbottom]
  · obtain ⟨hnt, depth, hdepth, hholds⟩ := (hlisted nt).1 hmem
    obtain ⟨e, he⟩ := Option.isSome_iff_exists.1 hholds
    exact ((hclimbs nt depth e hnt hdepth he).2.exists_lexical
      (hforbids.imp_right fun hchain => by omega)).2
  · rintro ⟨id, hid, rfl⟩
    refine (hlisted _).2 ⟨hg.parent_lt _ (hg.mem_lexicalWith.1 hid).1, 0, Nat.zero_le _, ?_⟩
    exact hlexical id hid

/-! ## A closed word -/

/-- A draft whose start symbol stands above the only lexical production. -/
def loneDraft : Draft where
  start := some "S"
  rules := #[.unary "S" "X" .certain, .lexical "X" "a" .certain]

/-- The grammar of that draft. -/
def loneGrammar : Grammar := loneDraft.build.toOption.get (by decide +kernel)

/-- The task of parsing its word. -/
def loneTask : Task where
  grammar := loneGrammar
  sentence := .ofWords loneGrammar #["a"]

/-- Without unary productions over the word, span-first search lists the lexical parent only, and
closing the word makes no difference to best-first search. -/
theorem word_spans_lone :
    (∀ nt, nt ∈ ((Parser.spanFirst {}).parse { loneTask with
      limits := { noUnary := [(0, 1)] } }).1.chart.populated 0 1 ↔ 1 = nt) ∧
    (Parser.bestFirst (.new .ghost .heuristic .memo)).parse (loneTask.closing [(0, 1)]) =
      (Parser.bestFirst (.new .ghost .heuristic .memo)).parse loneTask := by
  obtain ⟨-, -, -, hforbidden, -⟩ := word_spans
    (t := { loneTask with limits := { noUnary := [(0, 1)] } }) (Draft.build_eq_ok _)
    (.spanFirst {}) (i := 0) (by decide +kernel)
  obtain ⟨-, -, -, -, hclosing⟩ := word_spans (t := loneTask) (Draft.build_eq_ok _)
    (.bestFirst (.new .ghost .heuristic .memo)) (i := 0) (by decide +kernel)
  constructor
  · intro nt
    have hids : loneGrammar.lexicalWith (loneTask.sentence.token? 0) = [1] := by decide +kernel
    have hparent : (loneGrammar.production 1).parent = 1 := by decide +kernel
    rw [(hforbidden (Or.inl (by decide))).2 nt]
    change (∃ id ∈ loneGrammar.lexicalWith (loneTask.sentence.token? 0),
      (loneGrammar.production id).parent = nt) ↔ _
    rw [hids]
    simp only [List.mem_singleton, exists_eq_left, hparent]
  · refine hclosing [(0, 1)] fun start stop hwide => iff_of_false (fun hmem => ?_) List.not_mem_nil
    obtain ⟨rfl, rfl⟩ := Prod.mk.inj (List.mem_singleton.1 hmem)
    omega

/-- The span of the word is closed, and the start symbol is listed and stored there over the only
parent of a lexical production. -/
theorem closed_word_climbs :
    (loneTask.closing [(0, 1)]).limits.isOpen 0 1 = false ∧
    (loneGrammar.lexicalWith (loneTask.sentence.token? 0)).map (fun id =>
      (loneGrammar.production id).parent) = [1] ∧
    ∀ p ∈ [Parser.bottomUp { discovery := .productions },
        .bestFirst (.new .scan .inside .stable), .spanFirst {}],
      (p.parse (loneTask.closing [(0, 1)])).1.chart.populated 0 1 = [1, 0] ∧
      ((p.parse (loneTask.closing [(0, 1)])).1.chart.layerEdge 0 1 0 1).map Edge.kind =
        some .unary := by
  decide +kernel

end Parser
end BestParse
