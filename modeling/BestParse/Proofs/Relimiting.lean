import BestParse.Proofs.Parser
import BestParse.Proofs.SpanFirst.Halting

/-!
# Limits that make no difference

Searches ask their limits two things about binary edges: whether a span is open, and for its
split points.  They ask about spans of two words or more only, and go by nothing but the answer.
So a parse is the same under limits that answer alike over those spans: not an edge, not a count,
not a fault is different (`Parser.parse_relimited`).  Closing spans of one word is a case
(`Parser.parse_closing`).

Most steps do not look at these limits at all, and agree by computation.  Where they are looked
at, it takes the invariants of the searches to see that the span is that wide and in the sentence.
-/

namespace BestParse

open Chart

/-- The task with other spans closed and another limit on the width of children. -/
def Task.relimited (t : Task) (closed : List (Nat × Nat)) (maxWidth : Option Nat) : Task :=
  { t with limits := { t.limits with closed, maxChildWidth := maxWidth } }

/-- Over every span of two words or more, the new limits say the same about binary edges. -/
structure Task.LimitsAlike (t : Task) (closed : List (Nat × Nat)) (maxWidth : Option Nat) :
    Prop where
  isOpen_eq : ∀ {start stop}, start + 2 ≤ stop → stop ≤ t.sentence.size →
    (t.relimited closed maxWidth).limits.isOpen start stop = t.limits.isOpen start stop
  splits_eq : ∀ {start stop}, start + 2 ≤ stop → stop ≤ t.sentence.size →
    (t.relimited closed maxWidth).limits.splits start stop = t.limits.splits start stop
  splitsFit_eq : ∀ {start stop}, start + 2 ≤ stop → stop ≤ t.sentence.size →
    (t.relimited closed maxWidth).limits.splitsFit start stop = t.limits.splitsFit start stop

variable {t : Task} {closed : List (Nat × Nat)} {maxWidth : Option Nat}

/-! ## Bottom-up search -/

namespace BottomUp

/-- Unary passes do not ask about binary edges. -/
theorem Progress.unaryPassesFrom_relimited (t : Task) (closed : List (Nat × Nat))
    (maxWidth : Option Nat) (start stop : Nat) : ∀ (passes layer : Nat) (p : Progress),
      p.unaryPassesFrom t.grammar (t.relimited closed maxWidth).limits start stop passes layer =
        p.unaryPassesFrom t.grammar t.limits start stop passes layer
  | 0, _, _ => rfl
  | passes + 1, layer, p => by
      have hpass : p.unaryPass t.grammar (t.relimited closed maxWidth).limits start stop layer =
          p.unaryPass t.grammar t.limits start stop layer := rfl
      simp only [unaryPassesFrom, hpass,
        unaryPassesFrom_relimited t closed maxWidth start stop passes]

theorem Progress.unaryPasses_relimited (t : Task) (closed : List (Nat × Nat))
    (maxWidth : Option Nat) (p : Progress) (start stop : Nat) :
    p.unaryPasses t.grammar (t.relimited closed maxWidth).limits start stop =
      p.unaryPasses t.grammar t.limits start stop := by
  simp only [unaryPasses, unaryPassesFrom_relimited]
  rfl

theorem State.fillWord_relimited (t : Task) (closed : List (Nat × Nat)) (maxWidth : Option Nat)
    (discovery : Discovery) (s : State) (i : Nat) :
    s.fillWord (t.relimited closed maxWidth) discovery i = s.fillWord t discovery i := by
  have hpasses := fun p : Progress => p.unaryPasses_relimited t closed maxWidth i (i + 1)
  simp only [fillWord]
  rw [← hpasses]
  rfl

/-- Proposals go by the split points. -/
theorem proposals_congr {limits limits' : Limits} {start stop : Nat}
    (h : limits'.splits start stop = limits.splits start stop) (g : Grammar) (c : Chart)
    (x : Extents) (discovery : Discovery) :
    proposals g limits' c x start stop discovery = proposals g limits c x start stop discovery := by
  cases discovery with
  | productions => simp only [proposals, proposalsByProductions, h]
  | leftLists => simp only [proposals, proposalsByLeftLists, h]
  | pairs => simp only [proposals, proposalsByPairs, bestSplits, h]
  | extents => simp only [proposals, proposalsByExtents, h]

theorem State.fillOpen_relimited (h : t.LimitsAlike closed maxWidth) (discovery : Discovery)
    (s : State) {start stop : Nat} (hwide : start + 2 ≤ stop) (hstop : stop ≤ t.sentence.size) :
    s.fillOpen (t.relimited closed maxWidth) discovery start stop =
      s.fillOpen t discovery start stop := by
  have hsplits := h.splits_eq hwide hstop
  have hproposals := fun c x => proposals_congr hsplits t.grammar c x discovery
  have hcount : ∀ x, infeasibleCount t.grammar (t.relimited closed maxWidth).limits x start stop =
      infeasibleCount t.grammar t.limits x start stop := fun x => by
    simp only [infeasibleCount, hsplits]
  simp only [fillOpen]
  rw [← Progress.unaryPasses_relimited, ← hproposals, ← hcount, ← h.splitsFit_eq hwide hstop]
  rfl

theorem State.fillSpan_relimited (h : t.LimitsAlike closed maxWidth) (discovery : Discovery)
    (s : State) {start stop : Nat} (hwide : start + 2 ≤ stop) (hstop : stop ≤ t.sentence.size) :
    s.fillSpan (t.relimited closed maxWidth) discovery start stop =
      s.fillSpan t discovery start stop := by
  simp only [fillSpan, s.fillOpen_relimited h discovery hwide hstop, h.isOpen_eq hwide hstop]

theorem parse_relimited (h : t.LimitsAlike closed maxWidth) (b : BottomUp) :
    b.parse (t.relimited closed maxWidth) = b.parse t := by
  have hwords := List.foldl_ext
    (fun s i => State.fillWord (t.relimited closed maxWidth) b.discovery s i)
    (fun s i => s.fillWord t b.discovery i) (State.start t b.maxChain)
    (l := List.range t.sentence.size) fun s i _ =>
      s.fillWord_relimited t closed maxWidth b.discovery i
  have hrun : (State.start t b.maxChain).run (t.relimited closed maxWidth) b.discovery =
      (State.start t b.maxChain).run t b.discovery := by
    unfold State.run
    dsimp only
    rw [← hwords]
    refine List.foldl_ext _ _ _ fun s span hspan => ?_
    obtain ⟨hwide, hstop⟩ := mem_widerSpans.1 hspan
    exact State.fillSpan_relimited h b.discovery s hwide hstop
  unfold parse
  rw [← hrun]
  rfl

end BottomUp

/-! ## Span-first search -/

namespace SpanFirst

theorem binaryEdges_relimited (h : t.LimitsAlike closed maxWidth) (c : Chart) {span : Nat × Nat}
    (hwide : Wide t span) :
    binaryEdges (t.relimited closed maxWidth) c span.1 span.2 =
      binaryEdges t c span.1 span.2 := by
  unfold binaryEdges
  rw [h.splits_eq hwide.1 hwide.2]
  rfl

theorem improvingEdges_relimited (h : t.LimitsAlike closed maxWidth) (c : Chart)
    {span : Nat × Nat} (hwide : Wide t span) :
    improvingEdges (t.relimited closed maxWidth) c span.1 span.2 =
      improvingEdges t c span.1 span.2 :=
  congrArg (List.filter c.accepts) (binaryEdges_relimited h c hwide)

theorem isFaulty_relimited (h : t.LimitsAlike closed maxWidth) (c : Chart) {span : Nat × Nat}
    (hwide : Wide t span) :
    isFaulty (t.relimited closed maxWidth) c span.1 span.2 = isFaulty t c span.1 span.2 := by
  unfold isFaulty
  rw [improvingEdges_relimited h c hwide, h.splitsFit_eq hwide.1 hwide.2]
  rfl

namespace State

theorem rekey_relimited (h : t.LimitsAlike closed maxWidth) (s : State) {span : Nat × Nat}
    (hwide : Wide t span) :
    s.rekey (t.relimited closed maxWidth) span.1 span.2 = s.rekey t span.1 span.2 := by
  have hopen := h.isOpen_eq hwide.1 hwide.2
  have hbest : bestFom (t.relimited closed maxWidth) s.chart span.1 span.2 =
      bestFom t s.chart span.1 span.2 := by
    unfold bestFom
    rw [hopen, improvingEdges_relimited h s.chart hwide]
    rfl
  unfold rekey
  rw [hbest, hopen, isFaulty_relimited h s.chart hwide]

theorem rekeyAll_relimited (h : t.LimitsAlike closed maxWidth) (s : State)
    {spans : List (Nat × Nat)} (hspans : ∀ span ∈ spans, Wide t span) :
    s.rekeyAll (t.relimited closed maxWidth) spans = s.rekeyAll t spans :=
  List.foldl_ext _ _ _ fun s span hspan => s.rekey_relimited h (hspans span hspan)

/-- Admission does not ask about binary edges. -/
theorem drainFrom_relimited (t : Task) (closed : List (Nat × Nat)) (maxWidth : Option Nat)
    (maxLocal : Nat) : ∀ (turns admitted : Nat) (s : State),
      drainFrom (t.relimited closed maxWidth) maxLocal turns admitted s =
        drainFrom t maxLocal turns admitted s
  | 0, _, _ => rfl
  | turns + 1, admitted, s => by
      have hpush : ∀ (s : State) target,
          s.pushUnaries (t.relimited closed maxWidth) target = s.pushUnaries t target :=
        fun _ _ => rfl
      simp only [drainFrom, hpush, drainFrom_relimited t closed maxWidth maxLocal turns]
      rfl

theorem drain_relimited (t : Task) (closed : List (Nat × Nat)) (maxWidth : Option Nat)
    (maxLocal : Nat) (s : State) :
    s.drain (t.relimited closed maxWidth) maxLocal = s.drain t maxLocal :=
  drainFrom_relimited t closed maxWidth maxLocal _ 0 s

theorem gather_relimited (h : t.LimitsAlike closed maxWidth) (s : State) {span : Nat × Nat}
    (hwide : Wide t span) :
    s.gather (t.relimited closed maxWidth) span.1 span.2 = s.gather t span.1 span.2 := by
  unfold gather collected
  rw [improvingEdges_relimited h s.chart hwide, binaryEdges_relimited h s.chart hwide,
    isFaulty_relimited h s.chart hwide]
  rfl

theorem visit_relimited (h : t.LimitsAlike closed maxWidth) (maxLocal : Nat) (s : State)
    {span : Nat × Nat} (hwide : Wide t span) :
    s.visit (t.relimited closed maxWidth) maxLocal span.1 span.2 =
      s.visit t maxLocal span.1 span.2 := by
  rw [visit_eq, visit_eq, gather_relimited h s hwide, drain_relimited]

theorem seedWord_relimited (t : Task) (closed : List (Nat × Nat)) (maxWidth : Option Nat)
    (maxLocal : Nat) (s : State) (i : Nat) :
    s.seedWord (t.relimited closed maxWidth) maxLocal i = s.seedWord t maxLocal i := by
  have hsow : s.sow (t.relimited closed maxWidth) i = s.sow t i := rfl
  rw [seedWord_eq, seedWord_eq, hsow, drain_relimited]

end State

theorem seeded_relimited (hg : t.grammar.WellFormed) (h : t.LimitsAlike closed maxWidth)
    (p : SpanFirst) : seeded p (t.relimited closed maxWidth) = seeded p t := by
  have hwords : words p (t.relimited closed maxWidth) t.sentence.size =
      words p t t.sentence.size :=
    List.foldl_ext _ _ _ fun s i _ => s.seedWord_relimited t closed maxWidth p.maxLocal i
  have horderly : Orderly t p.maxChain (words p t t.sentence.size) :=
    (Orderly.start t p.maxChain).words hg p.maxLocal _ (Nat.le_refl _)
  have hsize := (horderly.sound hg).isFor.size_eq
  rw [seeded_eq, seeded_eq]
  change (words p (t.relimited closed maxWidth) t.sentence.size).rekeyAll _
    (wordParents (words p (t.relimited closed maxWidth) t.sentence.size).chart.size
      (List.range t.sentence.size)) = _
  rw [hwords, hsize]
  exact State.rekeyAll_relimited h _ fun span => mem_wordParents.1

/-- The span of the first key is wide and its visit leaves the size of the chart, so the keys of
wide spans are computed after it. -/
theorem turn_relimited (hg : t.grammar.WellFormed) (h : t.LimitsAlike closed maxWidth)
    (p : SpanFirst) {s : State} (hs : Orderly t p.maxChain s) {k : Nat × Nat} {fom : Score}
    (htop : s.top? = some (k, fom)) :
    State.propagate (t.relimited closed maxWidth)
        (((s.take k fom).visit (t.relimited closed maxWidth) p.maxLocal k.1 k.2).rekey
          (t.relimited closed maxWidth) k.1 k.2) k.1 k.2 =
      (((s.take k fom).visit t p.maxLocal k.1 k.2).rekey t k.1 k.2).propagate t k.1 k.2 := by
  obtain ⟨hwide, hopen⟩ := hs.wide k fom (State.top?_eq_some htop).1
  have hvisited := (hs.take k fom).visit hg p.maxLocal hwide hopen
  rw [State.visit_relimited h p.maxLocal _ hwide, State.rekey_relimited h _ hwide,
    State.propagate_eq, State.propagate_eq, (State.rekey_eq t _ k).1,
    (hvisited.sound hg).isFor.size_eq]
  exact State.rekeyAll_relimited h _ fun span => wide_of_mem_parents hwide.isSpan

theorem step_relimited (hg : t.grammar.WellFormed) (h : t.LimitsAlike closed maxWidth)
    (p : SpanFirst) {s : State} (hs : Orderly t p.maxChain s) :
    p.step (t.relimited closed maxWidth) s = p.step t s := by
  have hsettled : s.isSettled (t.relimited closed maxWidth) = s.isSettled t := rfl
  unfold step
  rw [hsettled]
  cases htop : s.top? with
  | none => rfl
  | some top =>
      dsimp only
      split
      · rfl
      · split
        · rfl
        · exact congrArg Turn.next (turn_relimited hg h p hs htop)

theorem run_relimited (hg : t.grammar.WellFormed) (h : t.LimitsAlike closed maxWidth)
    (p : SpanFirst) : ∀ (n : Nat) {s : State}, Orderly t p.maxChain s →
      p.run (t.relimited closed maxWidth) n s = p.run t n s
  | 0, _, _ => rfl
  | n + 1, s, hs => by
      unfold run
      rw [step_relimited hg h p hs]
      cases hstep : p.step t s with
      | next s' => exact run_relimited hg h p n (hs.next hg hstep)
      | halt last => rfl

theorem parse_relimited (hg : t.grammar.WellFormed) (h : t.LimitsAlike closed maxWidth)
    (p : SpanFirst) : p.parse (t.relimited closed maxWidth) = p.parse t := by
  have hsearch : p.search (t.relimited closed maxWidth) = p.search t := by
    change p.run (t.relimited closed maxWidth)
      (turns (seeded p (t.relimited closed maxWidth)).chart)
      (seeded p (t.relimited closed maxWidth)) = p.run t (turns (seeded p t).chart) (seeded p t)
    rw [seeded_relimited hg h]
    exact run_relimited hg h p _ (orderly_seeded hg p)
  unfold parse
  rw [hsearch]
  rfl

end SpanFirst

/-! ## Best-first search -/

namespace BestFirst

/-- An expansion looks at places, and these are over two words or more. -/
theorem State.expand_relimited (h : t.LimitsAlike closed maxWidth) (s : State) (target : Target)
    (effect : Effect) (hwide : ∀ p ∈ reach t s target effect,
      p.start + 2 ≤ p.stop ∧ p.stop ≤ t.sentence.size) :
    s.expand (t.relimited closed maxWidth) target effect = s.expand t target effect := by
  have hedges : (reach t s target effect).filterMap
        (Place.edge? (t.relimited closed maxWidth) s.chart) =
      (reach t s target effect).filterMap (Place.edge? t s.chart) := by
    refine List.filterMap_congr fun p hp => ?_
    obtain ⟨hwide, hstop⟩ := hwide p hp
    simp only [Place.edge?, h.isOpen_eq hwide hstop, h.splits_eq hwide hstop]
    rfl
  have hfaults : (reach t s target effect).any
        (Place.isFaulty (t.relimited closed maxWidth).limits) =
      (reach t s target effect).any (Place.isFaulty t.limits) := by
    rw [Bool.eq_iff_iff, List.any_eq_true, List.any_eq_true]
    refine exists_congr fun p => and_congr_right fun hp => ?_
    obtain ⟨hwide, hstop⟩ := hwide p hp
    simp only [Place.isFaulty, h.isOpen_eq hwide hstop, h.splitsFit_eq hwide hstop]
  unfold reach at hedges hfaults
  unfold expand
  dsimp only
  rw [← hedges, ← hfaults]
  rfl

section

variable (hg : t.grammar.WellFormed) (h : t.LimitsAlike closed maxWidth)

include hg h

theorem expand_relimited_of_regular {chain : Nat} {pending : Slot → Prop} {slots : List Slot}
    {s : State} (hregular : Regular t chain pending slots s) {target : Target}
    (htarget : s.chart.HasTarget target) (effect : Effect) :
    s.expand (t.relimited closed maxWidth) target effect = s.expand t target effect := by
  refine s.expand_relimited h target effect fun p hp => ?_
  obtain ⟨-, hlow, hhigh, hstop⟩ := hregular.inside_of_mem_reach hg htarget hp
  exact ⟨by omega, hstop⟩

theorem seedWord_relimited {chain i : Nat} (hi : i < t.sentence.size) {slots : List Slot}
    {s : State} (hseeding : Seeding t chain i [] slots s) :
    s.seedWord (t.relimited closed maxWidth) i = s.seedWord t i := by
  have hslots : ∀ (rest : List NonTerminal) (slots : List Slot) (s : State),
      Seeding t chain (i + 1) (wordSlots i rest) slots s →
      rest.foldl (fun s nt =>
          s.expand (t.relimited closed maxWidth) ⟨⟨i, i + 1, nt⟩, 0⟩ ⟨true, true⟩) s =
        rest.foldl (fun s nt => s.expand t ⟨⟨i, i + 1, nt⟩, 0⟩ ⟨true, true⟩) s := by
    intro rest
    induction rest with
    | nil => exact fun _ _ _ => rfl
    | cons nt rest ih =>
        intro slots s hseeding
        have htarget : s.chart.HasTarget ⟨⟨i, i + 1, nt⟩, 0⟩ :=
          ⟨(hseeding.fresh _ List.mem_cons_self).1, Nat.zero_le _⟩
        rw [List.foldl_cons, List.foldl_cons,
          expand_relimited_of_regular hg h hseeding.regular htarget]
        exact ih _ _ (hseeding.slot hg)
  unfold State.seedWord
  dsimp only
  rw [← Array.foldl_toList, ← Array.foldl_toList]
  exact hslots _ slots _ (hseeding.word hg hi _)

theorem words_relimited (b : BestFirst) : ∀ n ≤ t.sentence.size,
    (List.range n).foldl (fun s i => s.seedWord (t.relimited closed maxWidth) i) (b.start t) =
      (List.range n).foldl (fun s i => s.seedWord t i) (b.start t)
  | 0, _ => rfl
  | n + 1, hn => by
      have hle := Nat.le_of_succ_le hn
      have hsown : Sowing t b.maxChain (fun _ _ => True) n [] _ :=
        sowing_words hg (fun _ _ _ => trivial) b n hle
      obtain ⟨⟨slots, hseeding⟩, -⟩ := hsown
      rw [List.range_succ, List.foldl_append, List.foldl_append, words_relimited b n hle]
      exact seedWord_relimited hg h hn hseeding

theorem seed_relimited (b : BestFirst) :
    (b.start t).seed (t.relimited closed maxWidth) b.untilExhausted =
      (b.start t).seed t b.untilExhausted := by
  unfold State.seed
  dsimp only
  rw [← words_relimited hg h b _ (Nat.le_refl _)]
  rfl

theorem turned_relimited (b : BestFirst) {s : State} (hsteady : Steady t b.maxChain s) {e : Edge}
    (htop : s.queue.toList.head? = some e) :
    b.turned (t.relimited closed maxWidth) s e = b.turned t s e := by
  obtain ⟨pending, slots, hregular, -⟩ := hsteady
  have htarget : s.chart.HasTarget e.target := hregular.queued e (List.mem_of_mem_head? htop)
  have hwaited : ∀ f ∈ (s.taken t e).queue.toList, f ∈ s.queue.toList := by
    intro f hf
    rw [State.taken, EdgeQueue.toList_pop] at hf
    exact List.mem_of_mem_tail hf
  have hchart : (s.taken t e).chart = s.chart.store t.grammar e := rfl
  have htaken := hregular.store htarget hchart rfl rfl hwaited
  have htarget' : (s.taken t e).chart.HasTarget e.target := htarget
  have hexpand := expand_relimited_of_regular hg h htaken htarget' (s.chart.commit t.grammar e).1
  unfold turned
  rw [← hexpand]
  rfl

theorem run_relimited (b : BestFirst) : ∀ (n : Nat) {s : State}, Steady t b.maxChain s →
    b.run (t.relimited closed maxWidth) n s = b.run t n s
  | 0, _, _ => rfl
  | n + 1, s, hsteady => by
      have hstep : b.step (t.relimited closed maxWidth) s = b.step t s := by
        rw [step_eq, step_eq]
        cases htop : s.queue.toList.head? with
        | none => rfl
        | some e => simp only [turned_relimited hg h b hsteady htop]
      unfold run
      rw [hstep]
      cases hnext : b.step t s with
      | next s' => exact run_relimited b n (steady_next hg hsteady hnext).1
      | halt last => rfl

theorem parse_relimited (b : BestFirst) :
    b.parse (t.relimited closed maxWidth) = b.parse t := by
  have hsearch : b.search (t.relimited closed maxWidth) = b.search t := by
    have hrun := run_relimited hg h b (turns t b.maxChain) (steady_seed hg b)
    unfold search
    rw [← hrun, ← seed_relimited hg h]
    rfl
  unfold parse
  rw [hsearch]
  rfl

end

end BestFirst

/-! ## Parsers -/

/-- A parse is the same under limits that say the same about binary edges. -/
theorem Parser.parse_relimited (hg : t.grammar.WellFormed) (h : t.LimitsAlike closed maxWidth)
    (p : Parser) : p.parse (t.relimited closed maxWidth) = p.parse t := by
  cases p with
  | bottomUp b => simp only [parse, b.parse_relimited h]
  | bestFirst b => simp only [parse, b.parse_relimited hg h]
  | spanFirst p => simp only [parse, p.parse_relimited hg h]

/-! ## Closing spans of one word -/

/-- The task with other spans closed. -/
def Task.closing (t : Task) (closed : List (Nat × Nat)) : Task :=
  { t with limits := { t.limits with closed } }

/-- The same spans of two words or more are closed. -/
def Task.ClosesAlike (t : Task) (closed : List (Nat × Nat)) : Prop :=
  ∀ start stop, start + 2 ≤ stop → ((start, stop) ∈ closed ↔ (start, stop) ∈ t.limits.closed)

theorem Task.ClosesAlike.limitsAlike (h : t.ClosesAlike closed) :
    t.LimitsAlike closed t.limits.maxChildWidth where
  isOpen_eq {start stop} hwide _ := by
    have hiff : closed.contains (start, stop) = t.limits.closed.contains (start, stop) := by
      rw [Bool.eq_iff_iff, List.contains_iff_mem, List.contains_iff_mem]
      exact h start stop hwide
    exact congrArg not hiff
  splits_eq _ _ := rfl
  splitsFit_eq _ _ := rfl

/-- A parse is the same if other spans of one word are closed. -/
theorem Parser.parse_closing (hg : t.grammar.WellFormed) (h : t.ClosesAlike closed) (p : Parser) :
    p.parse (t.closing closed) = p.parse t :=
  p.parse_relimited hg h.limitsAlike

end BestParse
