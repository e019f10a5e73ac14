import BestParse.Search.SpanFirst
import BestParse.Proofs.BestFirst.Steps
import BestParse.Proofs.BottomUp.Discovery

/-!
# What the steps of span-first search do

The parts of a state that matter are its chart, its keys and the edges that wait for
admission.  This module says once what each operation does to these parts, and no later
proof opens the operations.

* Keys are computed anew over a list of spans (`rekeyAll`), from the chart as it stands.
* The local queue takes edges in (`enqueue`) and gives out the first.  `Admits` is the
  inversion of one round of its loop: the edge taken is dropped, or committed with the unary
  edges over it queued.
* A turn takes the span whose key comes first, visits it and computes the keys of the span
  and of its parents anew (`step_next`).
-/

namespace BestParse
namespace SpanFirst

open Chart
open BestFirst (unaryCandidates)
open BottomUp (Joins)

variable {t : Task} {chain : Nat} {c : Chart} {e : Edge}

/-! ## Binary edges over a span -/

theorem joins_of_mem_binaryEdges (hg : t.grammar.WellFormed) {start stop : Nat}
    (h : e ∈ binaryEdges t c start stop) :
    ∃ id l r mid x, Joins t c start stop id l r mid x ∧
      t.limits.allows t.grammar start stop (t.grammar.production id).parent = true ∧
      Edge.binary t.grammar id start mid stop x = e := by
  simp only [binaryEdges, List.mem_flatMap, List.mem_filterMap, Option.ite_none_right_eq_some,
    Option.map_eq_some_iff, hg.mem_binaryWithPair, Interval.mem_positions] at h
  obtain ⟨mid, hmid, l, -, r, -, id, ⟨hid, hexp⟩, hallows, x, hx, he⟩ := h
  exact ⟨id, l, r, mid, x, ⟨hid, hexp, hmid, hx⟩, hallows, he⟩

/-- Over a sound chart, the binary edges are those of all reachable children. -/
theorem mem_binaryEdges (hg : t.grammar.WellFormed) (hc : c.Sound t chain) {start stop : Nat}
    (hstop : stop ≤ t.sentence.size) :
    e ∈ binaryEdges t c start stop ↔
      ∃ id l r mid x, Joins t c start stop id l r mid x ∧
        t.limits.allows t.grammar start stop (t.grammar.production id).parent = true ∧
        Edge.binary t.grammar id start mid stop x = e := by
  refine ⟨joins_of_mem_binaryEdges hg, ?_⟩
  rintro ⟨id, l, r, mid, x, hjoins, hallows, he⟩
  simp only [binaryEdges, List.mem_flatMap, List.mem_filterMap, Option.ite_none_right_eq_some,
    Option.map_eq_some_iff, hg.mem_binaryWithPair, Interval.mem_positions]
  exact ⟨mid, hjoins.split, l, hjoins.mem_leftChildren hc hg hstop, r,
    hjoins.mem_rightChildren hc hg hstop, id, ⟨hjoins.production_lt, hjoins.expansion_eq⟩,
    hallows, x, hjoins.combine_eq, he⟩

theorem mem_improvingEdges {start stop : Nat} :
    e ∈ improvingEdges t c start stop ↔
      e ∈ binaryEdges t c start stop ∧ c.accepts e = true :=
  List.mem_filter

/-! ## Keys -/

/-- The key of a span over a chart, if it has one. -/
def keyOf? (t : Task) (c : Chart) (span : Nat × Nat) : Option Score :=
  if (bestFom t c span.1 span.2).isReachable then some (bestFom t c span.1 span.2) else none

/-- A span of two words or more of the sentence. -/
def Wide (t : Task) (span : Nat × Nat) : Prop :=
  span.1 + 2 ≤ span.2 ∧ span.2 ≤ t.sentence.size

theorem Wide.isSpan {span : Nat × Nat} (h : Wide t span) :
    IsSpan t.sentence.size span.1 span.2 :=
  ⟨Nat.lt_of_lt_of_le (by omega) h.1, h.2⟩

/-- The spans that have a span as a child, in a sentence of the size given. -/
def parents (size start stop : Nat) : List (Nat × Nat) :=
  (List.range start).map (fun k => (k, stop)) ++
    (List.range' (stop + 1) (size - stop)).map fun k => (start, k)

theorem mem_parents {size start stop : Nat} (hstop : stop ≤ size) {span : Nat × Nat} :
    span ∈ parents size start stop ↔
      span.1 < start ∧ span.2 = stop ∨ span.1 = start ∧ stop < span.2 ∧ span.2 ≤ size := by
  obtain ⟨a, b⟩ := span
  simp only [parents, List.mem_append, List.mem_map, List.mem_range, List.mem_range'_1,
    Prod.mk.injEq]
  constructor
  · rintro (⟨k, hk, rfl, rfl⟩ | ⟨k, hk, rfl, rfl⟩)
    · exact Or.inl ⟨hk, rfl⟩
    · exact Or.inr ⟨rfl, by omega, by omega⟩
  · rintro (⟨hlt, rfl⟩ | ⟨rfl, hlt, hle⟩)
    · exact Or.inl ⟨a, hlt, rfl, rfl⟩
    · exact Or.inr ⟨b, by omega, rfl, rfl⟩

theorem wide_of_mem_parents {start stop : Nat} (hspan : IsSpan t.sentence.size start stop)
    {span : Nat × Nat} (h : span ∈ parents t.sentence.size start stop) : Wide t span := by
  obtain ⟨hlt, hle⟩ := hspan
  unfold Wide
  rcases (mem_parents hle).1 h with ⟨hless, heq⟩ | ⟨heq, hless, hsize⟩
  · omega
  · omega

namespace State

/-- Compute the keys of some spans anew. -/
def rekeyAll (t : Task) (s : State) (spans : List (Nat × Nat)) : State :=
  spans.foldl (fun s span => s.rekey t span.1 span.2) s

theorem rekey_eq (t : Task) (s : State) (span : Nat × Nat) :
    (s.rekey t span.1 span.2).chart = s.chart ∧ (s.rekey t span.1 span.2).waiting = s.waiting ∧
      (s.rekey t span.1 span.2).faulty = (s.faulty ||
        (t.limits.isOpen span.1 span.2 && isFaulty t s.chart span.1 span.2)) ∧
      ∀ key, (s.rekey t span.1 span.2).keys[key]? =
        if key = span then keyOf? t s.chart span else s.keys[key]? := by
  have hcompare : ∀ key, @compare (Nat × Nat) lexOrd span key = .eq ↔ key = span := fun key =>
    Std.LawfulEqCmp.compare_eq_iff_eq.trans eq_comm
  unfold rekey keyOf?
  dsimp only
  split
  · refine ⟨rfl, rfl, rfl, fun key => ?_⟩
    rw [Std.TreeMap.getElem?_insert]
    simp only [hcompare]
  · refine ⟨rfl, rfl, rfl, fun key => ?_⟩
    rw [Std.TreeMap.getElem?_erase]
    simp only [hcompare]

theorem rekeyAll_eq (t : Task) :
    ∀ (spans : List (Nat × Nat)) (s : State),
      (s.rekeyAll t spans).chart = s.chart ∧ (s.rekeyAll t spans).waiting = s.waiting ∧
      (s.rekeyAll t spans).faulty = (s.faulty || spans.any fun span =>
        t.limits.isOpen span.1 span.2 && isFaulty t s.chart span.1 span.2) ∧
      ∀ key, (s.rekeyAll t spans).keys[key]? =
        if key ∈ spans then keyOf? t s.chart key else s.keys[key]?
  | [], s => ⟨rfl, rfl, (Bool.or_false _).symm, fun key => by simp [rekeyAll]⟩
  | span :: spans, s => by
      obtain ⟨hchart, hwaiting, hfaulty, hkeys⟩ := rekey_eq t s span
      obtain ⟨hchart', hwaiting', hfaulty', hkeys'⟩ :=
        rekeyAll_eq t spans (s.rekey t span.1 span.2)
      refine ⟨hchart'.trans hchart, hwaiting'.trans hwaiting, ?_, fun key => ?_⟩
      · refine hfaulty'.trans ?_
        rw [hfaulty, hchart, List.any_cons, Bool.or_assoc]
      · refine (hkeys' key).trans ?_
        rw [hkeys, hchart]
        by_cases hmem : key ∈ spans
        · simp [hmem]
        · by_cases heq : key = span
          · simp [heq]
          · simp [hmem, heq]

theorem rekeyAll_append (t : Task) (s : State) (spans spans' : List (Nat × Nat)) :
    s.rekeyAll t (spans ++ spans') = (s.rekeyAll t spans).rekeyAll t spans' :=
  List.foldl_append

theorem propagate_eq (t : Task) (s : State) (start stop : Nat) :
    s.propagate t start stop = s.rekeyAll t (parents s.chart.size start stop) := by
  have hfirst : (List.range start).foldl (fun s k => s.rekey t k stop) s =
      s.rekeyAll t ((List.range start).map fun k => (k, stop)) := by
    rw [rekeyAll, List.foldl_map]
  unfold propagate parents
  dsimp only
  rw [hfirst, (rekeyAll_eq t _ s).1, rekeyAll_append]
  generalize s.rekeyAll t ((List.range start).map fun k => (k, stop)) = s'
  rw [rekeyAll, List.foldl_map]

end State

/-! ## Waiting edges -/

/-- The local queue after it has taken in some edges. -/
def enqueue (q : StableQueue) (es : List Edge) : StableQueue := es.foldl StableQueue.push q

theorem mem_enqueue {f : Edge} :
    ∀ (es : List Edge) {q : StableQueue},
      f ∈ (enqueue q es).entries ↔ f ∈ q.entries ∨ f ∈ es
  | [], q => by simp [enqueue]
  | e :: es, q => by
      refine (mem_enqueue es (q := q.push e)).trans ?_
      rw [StableQueue.push, StableQueue.mem_insert, List.mem_cons, or_comm (a := f = e), or_assoc]

theorem length_enqueue :
    ∀ (es : List Edge) (q : StableQueue),
      (enqueue q es).entries.length = q.entries.length + es.length
  | [], q => rfl
  | e :: es, q => by
      refine (length_enqueue es (q.push e)).trans ?_
      rw [StableQueue.push, StableQueue.length_insert, List.length_cons]
      omega

namespace State

theorem pushAll_eq :
    ∀ (es : List Edge) (s : State),
      (es.foldl push s).chart = s.chart ∧ (es.foldl push s).keys = s.keys ∧
      (es.foldl push s).faulty = s.faulty ∧ (es.foldl push s).waiting = enqueue s.waiting es
  | [], _ => ⟨rfl, rfl, rfl, rfl⟩
  | e :: es, s => pushAll_eq es (s.push e)

/-- The rated unary edges over a layer. -/
def ratedUnaries (t : Task) (c : Chart) (target : Target) : List Edge :=
  (unaryCandidates t c target).map (rate t c)

/-- What queueing the unary edges over some layers does. -/
structure Queues (t : Task) (s : State) (es : List Edge) (s' : State) : Prop where
  chart_eq : s'.chart = s.chart
  keys_eq : s'.keys = s.keys
  waiting_eq : s'.waiting = enqueue s.waiting es
  faulty : s'.faulty = true → s.faulty = true ∨ ∃ e, t.merit.covers e = false

theorem Queues.refl (t : Task) (s : State) : Queues t s [] s := ⟨rfl, rfl, rfl, Or.inl⟩

theorem Queues.trans {s s' s'' : State} {es es' : List Edge} (h : Queues t s es s')
    (h' : Queues t s' es' s'') : Queues t s (es ++ es') s'' where
  chart_eq := h'.chart_eq.trans h.chart_eq
  keys_eq := h'.keys_eq.trans h.keys_eq
  waiting_eq := by
    rw [h'.waiting_eq, h.waiting_eq, enqueue, enqueue, enqueue, List.foldl_append]
  faulty hfaulty := (h'.faulty hfaulty).elim h.faulty Or.inr

/-- The unary edge of a production over a layer. -/
def unaryOver? (t : Task) (c : Chart) (target : Target) (id : ProductionId) : Option Edge :=
  if t.limits.allows t.grammar target.slot.start target.slot.stop
      (t.grammar.production id).parent then
    (Score.extend (t.grammar.production id).logprob (c.scoreAt target)).map
      (Edge.unary t.grammar id target.slot.start target.slot.stop (target.layer + 1))
  else none

theorem queues_pushUnary (t : Task) (target : Target) (s : State) (id : ProductionId) :
    Queues t s ((unaryOver? t s.chart target id).toList.map (rate t s.chart))
      (s.pushUnary t target id) := by
  obtain ⟨⟨start, stop, symbol⟩, layer⟩ := target
  unfold pushUnary unaryOver?
  dsimp only
  rw [← layerInside_eq]
  split
  · cases Score.extend (t.grammar.production id).logprob
        (s.chart.layerInside start stop symbol layer) with
    | some inside =>
        refine ⟨rfl, rfl, rfl, fun hfaulty => ?_⟩
        rcases Bool.or_eq_true_iff.1 hfaulty with hold | hnew
        · exact Or.inl hold
        · exact Or.inr ⟨_, Bool.not_eq_true' _ ▸ hnew⟩
    | none => exact Queues.refl t s
  · exact Queues.refl t s

theorem queues_pushUnaryAll (t : Task) (target : Target) :
    ∀ (ids : List ProductionId) (s : State),
      Queues t s ((ids.filterMap (unaryOver? t s.chart target)).map (rate t s.chart))
        (ids.foldl (pushUnary t target) s)
  | [], s => Queues.refl t s
  | id :: ids, s => by
      have hfirst := queues_pushUnary t target s id
      have hrest := queues_pushUnaryAll t target ids (s.pushUnary t target id)
      rw [hfirst.chart_eq] at hrest
      have hboth := hfirst.trans hrest
      rw [← List.map_append] at hboth
      rw [List.filterMap_cons]
      cases hover : unaryOver? t s.chart target id with
      | none =>
          rw [hover] at hboth
          exact hboth
      | some e =>
          rw [hover] at hboth
          exact hboth

theorem queues_pushUnaries (t : Task) (s : State) (target : Target) :
    Queues t s (ratedUnaries t s.chart target) (s.pushUnaries t target) := by
  unfold pushUnaries ratedUnaries unaryCandidates
  dsimp only
  split
  · exact queues_pushUnaryAll t target _ s
  · exact Queues.refl t s

/-- The unary edges over several layers are queued. -/
theorem queues_targets (t : Task) :
    ∀ (targets : List Target) (s : State),
      Queues t s (targets.flatMap (ratedUnaries t s.chart))
        (targets.foldl (fun s target => s.pushUnaries t target) s)
  | [], s => Queues.refl t s
  | target :: targets, s => by
      have hfirst := queues_pushUnaries t s target
      have hrest := queues_targets t targets (s.pushUnaries t target)
      rw [hfirst.chart_eq] at hrest
      exact hfirst.trans hrest

/-! ## Counts -/

/-- The counts that taking edges into a queue leaves alone: visits, edges taken out and edges
committed. -/
def tally (s : State) : Nat × Nat × Nat := (s.work.visits, s.work.pops, s.work.committed)

theorem tally_rekeyAll (t : Task) :
    ∀ (spans : List (Nat × Nat)) (s : State), (s.rekeyAll t spans).tally = s.tally
  | [], _ => rfl
  | span :: spans, s => by
      refine (tally_rekeyAll t spans _).trans ?_
      unfold rekey tally
      dsimp only
      split <;> rfl

theorem tally_pushAll : ∀ (es : List Edge) (s : State), (es.foldl push s).tally = s.tally
  | [], _ => rfl
  | e :: es, s => tally_pushAll es (s.push e)

theorem tally_pushUnary (t : Task) (target : Target) (s : State) (id : ProductionId) :
    (s.pushUnary t target id).tally = s.tally := by
  unfold pushUnary
  dsimp only
  split
  · split <;> rfl
  · rfl

theorem tally_pushUnaries (t : Task) (s : State) (target : Target) :
    (s.pushUnaries t target).tally = s.tally := by
  unfold pushUnaries
  split
  · exact List.foldlRecOn (motive := fun s' => s'.tally = s.tally) _ _ rfl
      fun s' h id _ => (tally_pushUnary t target s' id).trans h
  · rfl

theorem tally_targets (t : Task) (targets : List Target) (s : State) :
    (targets.foldl (fun s target => s.pushUnaries t target) s).tally = s.tally :=
  List.foldlRecOn (motive := fun s' => s'.tally = s.tally) targets _ rfl
    fun s' h target _ => (tally_pushUnaries t s' target).trans h

/-! ## Admission -/

/-- What becomes of the edge taken from the local queue. -/
inductive Admits (t : Task) (s : State) (e : Edge) (s' : State) : Prop where
  /-- It is over the number of binary edges, or not better than its layer. -/
  | skip (declined : e.kind = .binary ∨ s.chart.accepts e = false) (chart_eq : s'.chart = s.chart)
      (keys_eq : s'.keys = s.keys) (waiting_eq : s'.waiting.entries = s.waiting.entries.tail)
      (faulty_eq : s'.faulty = s.faulty)
  /-- It is committed, and the unary edges over it are queued. -/
  | commit (before : State) (queues : Queues t before (ratedUnaries t before.chart e.target) s')
      (accepted : s.chart.accepts e = true)
      (chart_eq : before.chart = s.chart.store t.grammar e) (keys_eq : before.keys = s.keys)
      (waiting_eq : before.waiting.entries = s.waiting.entries.tail)
      (faulty_eq : before.faulty = s.faulty)

theorem Admits.keys {s s' : State} (h : Admits t s e s') : s'.keys = s.keys := by
  cases h with
  | skip declined chart_eq keys_eq waiting_eq faulty_eq => exact keys_eq
  | commit before queues accepted chart_eq keys_eq waiting_eq faulty_eq =>
      exact queues.keys_eq.trans keys_eq

theorem drainFrom_nil {maxLocal turns admitted : Nat} {s : State} (h : s.waiting.entries = []) :
    drainFrom t maxLocal turns admitted s = s := by
  cases turns with
  | zero => rfl
  | succ turns => simp [drainFrom, StableQueue.pop, h]

/-- Whether a round passes over the edge it takes: there are enough binary edges, or the edge is
not better than its layer. -/
def passesOver (maxLocal admitted : Nat) (s : State) (e : Edge) : Bool :=
  (decide (e.kind = .binary) && 0 < maxLocal && maxLocal ≤ admitted) || !s.chart.accepts e

/-- The state after the first edge that waits is taken. -/
def withoutHead (s : State) : State :=
  { s with
    waiting := ⟨s.waiting.entries.tail⟩
    work := { s.work with pops := s.work.pops + 1 } }

/-- The state after the edge taken is committed. -/
def committing (t : Task) (s : State) (e : Edge) : State :=
  { s.withoutHead with
    chart := s.chart.store t.grammar e
    work := { s.withoutHead.work with committed := s.work.committed + 1 } }

/-- The state after a round of the loop. -/
def round (t : Task) (maxLocal admitted : Nat) (s : State) (e : Edge) : State :=
  if passesOver maxLocal admitted s e then s.withoutHead
  else (s.committing t e).pushUnaries t e.target

/-- The number of binary edges admitted after a round. -/
def admittedAfter (maxLocal admitted : Nat) (s : State) (e : Edge) : Nat :=
  if passesOver maxLocal admitted s e then admitted
  else if e.kind = .binary then admitted + 1
  else admitted

theorem drainFrom_succ (t : Task) (maxLocal turns admitted : Nat) {s : State}
    (h : s.waiting.entries.head? = some e) :
    drainFrom t maxLocal (turns + 1) admitted s =
      drainFrom t maxLocal turns (admittedAfter maxLocal admitted s e)
        (round t maxLocal admitted s e) := by
  obtain ⟨rest, hlist⟩ := List.head?_eq_some_iff.1 h
  have hpop : s.waiting.pop = (some e, ⟨s.waiting.entries.tail⟩) := by
    simp [StableQueue.pop, hlist]
  rw [drainFrom, hpop]
  unfold admittedAfter round passesOver
  dsimp only
  split
  · rfl
  · simp only [decide_eq_true_eq]
    rfl

/-- The edge is committed unless the round passes over it. -/
theorem admits_round (t : Task) (maxLocal admitted : Nat) (s : State) (e : Edge) :
    Admits t s e (round t maxLocal admitted s e) := by
  unfold round
  split
  · next hskip =>
    rw [passesOver, Bool.or_eq_true, Bool.not_eq_true', Bool.and_eq_true, Bool.and_eq_true,
      decide_eq_true_iff] at hskip
    exact .skip (hskip.imp_left fun hfull => hfull.1.1) rfl rfl rfl rfl
  · next hgoes =>
    rw [passesOver, Bool.or_eq_true, not_or, Bool.not_eq_true', Bool.not_eq_false] at hgoes
    exact .commit (s.committing t e) (queues_pushUnaries t _ _) hgoes.2 rfl rfl rfl rfl

/-- What a round of the loop does to the chart and the counts. -/
theorem tally_round (t : Task) (maxLocal admitted : Nat) (s : State) (e : Edge) :
    (round t maxLocal admitted s e).work.visits = s.work.visits ∧
      (round t maxLocal admitted s e).work.pops = s.work.pops + 1 ∧
      if passesOver maxLocal admitted s e then
        (round t maxLocal admitted s e).chart = s.chart ∧
        (round t maxLocal admitted s e).work.committed = s.work.committed
      else
        (round t maxLocal admitted s e).chart = s.chart.store t.grammar e ∧
        (round t maxLocal admitted s e).work.committed = s.work.committed + 1 := by
  unfold round
  split
  · exact ⟨rfl, rfl, rfl, rfl⟩
  · obtain ⟨hvisits, htally⟩ := Prod.mk.injEq .. ▸ tally_pushUnaries t (s.committing t e) e.target
    obtain ⟨hpops, hcommitted⟩ := Prod.mk.injEq .. ▸ htally
    exact ⟨hvisits, hpops, (queues_pushUnaries t _ _).chart_eq, hcommitted⟩

/-- What a round of the loop does to the counts. -/
structure Counts (s s' : State) : Prop where
  visits_eq : s'.work.visits = s.work.visits
  pops_eq : s'.work.pops = s.work.pops + 1
  committed_le : s.work.committed ≤ s'.work.committed

/-- One round of the loop.  An edge that is better than its layer is committed, if none was
before. -/
theorem drainFrom_cons (t : Task) (maxLocal admitted : Nat) {s : State}
    (h : s.waiting.entries.head? = some e) :
    ∃ admitted' s', Admits t s e s' ∧ Counts s s' ∧
      (admitted = 0 → s.chart.accepts e = true →
        s'.chart = s.chart.store t.grammar e ∧ s.work.committed < s'.work.committed) ∧
      ∀ turns, drainFrom t maxLocal (turns + 1) admitted s =
        drainFrom t maxLocal turns admitted' s' := by
  obtain ⟨hvisits, hpops, hround⟩ := tally_round t maxLocal admitted s e
  refine ⟨_, _, admits_round t maxLocal admitted s e, ⟨hvisits, hpops, ?_⟩, fun hzero haccepts => ?_,
    fun turns => drainFrom_succ t maxLocal turns admitted h⟩
  · split at hround
    · exact Nat.le_of_eq hround.2.symm
    · rw [hround.2]
      exact Nat.le_succ _
  · have hgoes : passesOver maxLocal admitted s e = false := by
      unfold passesOver
      rw [haccepts, hzero, Bool.not_true, Bool.or_false]
      cases maxLocal with
      | zero => simp
      | succ maxLocal => simp
    rw [hgoes] at hround
    exact ⟨hround.1, Nat.lt_of_lt_of_eq (Nat.lt_succ_self _) hround.2.symm⟩

/-- An invariant of the rounds holds after the loop. -/
theorem drainFrom_keeps {I : State → Prop} (maxLocal : Nat)
    (hround : ∀ s e s', I s → s.waiting.entries.head? = some e → Admits t s e s' → I s') :
    ∀ (turns admitted : Nat) (s : State), I s → I (drainFrom t maxLocal turns admitted s)
  | 0, _, _, hI => hI
  | turns + 1, admitted, s, hI => by
      cases hhead : s.waiting.entries.head? with
      | none =>
          rw [drainFrom_nil (List.head?_eq_none_iff.1 hhead)]
          exact hI
      | some e =>
          obtain ⟨admitted', s', hadmits, -, -, heq⟩ := drainFrom_cons t maxLocal admitted hhead
          rw [heq]
          exact drainFrom_keeps maxLocal hround turns admitted' s' (hround s e s' hI hhead hadmits)

/-- The loop empties the queue when some measure goes down. -/
theorem drainFrom_ends {I : State → Prop} (maxLocal : Nat) (measure : State → Nat)
    (hround : ∀ s e s', I s → s.waiting.entries.head? = some e → Admits t s e s' →
      I s' ∧ measure s' < measure s) :
    ∀ (turns admitted : Nat) (s : State), I s → measure s < turns →
      (drainFrom t maxLocal turns admitted s).waiting.entries = []
  | 0, _, _, _, hlt => absurd hlt (Nat.not_lt_zero _)
  | turns + 1, admitted, s, hI, hlt => by
      cases hhead : s.waiting.entries.head? with
      | none =>
          have hempty := List.head?_eq_none_iff.1 hhead
          rw [drainFrom_nil hempty]
          exact hempty
      | some e =>
          obtain ⟨admitted', s', hadmits, -, -, heq⟩ := drainFrom_cons t maxLocal admitted hhead
          obtain ⟨hI', hless⟩ := hround s e s' hI hhead hadmits
          rw [heq]
          exact drainFrom_ends maxLocal measure hround turns admitted' s' hI' (by omega)

/-- Once the queue is empty, more rounds change nothing. -/
theorem drainFrom_more (maxLocal more : Nat) :
    ∀ (turns admitted : Nat) (s : State),
      (drainFrom t maxLocal turns admitted s).waiting.entries = [] →
      drainFrom t maxLocal (turns + more) admitted s = drainFrom t maxLocal turns admitted s
  | 0, _, _, hempty => drainFrom_nil hempty
  | turns + 1, admitted, s, hempty => by
      cases hhead : s.waiting.entries.head? with
      | none =>
          have hnil := List.head?_eq_none_iff.1 hhead
          rw [drainFrom_nil hnil, drainFrom_nil hnil]
      | some e =>
          obtain ⟨admitted', s', -, -, -, heq⟩ := drainFrom_cons t maxLocal admitted hhead
          rw [heq] at hempty
          rw [Nat.succ_add, heq, heq]
          exact drainFrom_more maxLocal more turns admitted' s' hempty

/-- The loop takes out at most one edge for each round. -/
theorem drainFrom_counts (t : Task) (maxLocal : Nat) :
    ∀ (turns admitted : Nat) (s : State),
      (drainFrom t maxLocal turns admitted s).work.visits = s.work.visits ∧
      (drainFrom t maxLocal turns admitted s).work.pops ≤ s.work.pops + turns ∧
      s.work.committed ≤ (drainFrom t maxLocal turns admitted s).work.committed
  | 0, _, _ => ⟨rfl, Nat.le_refl _, Nat.le_refl _⟩
  | turns + 1, admitted, s => by
      cases hhead : s.waiting.entries.head? with
      | none =>
          rw [drainFrom_nil (List.head?_eq_none_iff.1 hhead)]
          exact ⟨rfl, Nat.le_add_right _ _, Nat.le_refl _⟩
      | some e =>
          obtain ⟨admitted', s', -, hcounts, -, heq⟩ := drainFrom_cons t maxLocal admitted hhead
          obtain ⟨hvisits, hpops, hcommitted⟩ := drainFrom_counts t maxLocal turns admitted' s'
          rw [heq]
          rw [hcounts.visits_eq] at hvisits
          rw [hcounts.pops_eq] at hpops
          exact ⟨hvisits, by omega, Nat.le_trans hcounts.committed_le hcommitted⟩

end State

/-! ## Visits -/

theorem mem_keepBest {f : Edge} :
    ∀ {kept : List Edge}, f ∈ keepBest kept e → f = e ∨ f ∈ kept
  | [], h => Or.inl (List.mem_singleton.1 h)
  | b :: rest, h => by
      unfold keepBest at h
      split at h
      · rcases List.mem_cons.1 h with heq | hrest
        · split at heq
          · exact Or.inl heq
          · exact Or.inr (heq ▸ List.mem_cons_self)
        · exact Or.inr (List.mem_cons_of_mem b hrest)
      · rcases List.mem_cons.1 h with rfl | hrest
        · exact Or.inr List.mem_cons_self
        · exact (mem_keepBest hrest).imp_right (List.mem_cons_of_mem b)

theorem keepBest_ne_nil (kept : List Edge) (e : Edge) : keepBest kept e ≠ [] := by
  cases kept with
  | nil => exact List.cons_ne_nil _ _
  | cons b rest =>
      unfold keepBest
      split <;> exact List.cons_ne_nil _ _

/-- The edges that a visit collects: the best improving edge for each parent, rated. -/
def collected (t : Task) (c : Chart) (start stop : Nat) : List Edge :=
  ((improvingEdges t c start stop).map (rate t c)).foldl keepBest []

theorem mem_collected {start stop : Nat} (h : e ∈ collected t c start stop) :
    ∃ f ∈ improvingEdges t c start stop, e = rate t c f := by
  have hsub : ∀ (es kept : List Edge), e ∈ es.foldl keepBest kept → e ∈ kept ∨ e ∈ es := by
    intro es
    induction es with
    | nil => exact fun kept hmem => Or.inl hmem
    | cons f es ih =>
        intro kept hmem
        rcases ih _ hmem with hkept | hes
        · rcases mem_keepBest hkept with rfl | hold
          · exact Or.inr List.mem_cons_self
          · exact Or.inl hold
        · exact Or.inr (List.mem_cons_of_mem f hes)
  rcases hsub _ _ h with hnil | hmem
  · cases hnil
  · obtain ⟨f, hf, rfl⟩ := List.mem_map.1 hmem
    exact ⟨f, hf, rfl⟩

theorem collected_ne_nil {start stop : Nat} (h : e ∈ improvingEdges t c start stop) :
    collected t c start stop ≠ [] := by
  have hne : ∀ (es kept : List Edge), es ≠ [] ∨ kept ≠ [] → es.foldl keepBest kept ≠ [] := by
    intro es
    induction es with
    | nil => exact fun kept hor => hor.resolve_left fun hnil => hnil rfl
    | cons f es ih => exact fun kept _ => ih _ (Or.inr (keepBest_ne_nil kept f))
  exact hne _ _ (Or.inl (List.ne_nil_of_mem (List.mem_map_of_mem h)))

/-- The state in which a visit empties the local queue: the edges collected wait. -/
def State.gather (t : Task) (s : State) (start stop : Nat) : State :=
  (collected t s.chart start stop).foldl push
    { s with
      work := { s.work with built := s.work.built + (binaryEdges t s.chart start stop).length }
      faulty := s.faulty || isFaulty t s.chart start stop }

theorem State.visit_eq (t : Task) (maxLocal : Nat) (s : State) (start stop : Nat) :
    s.visit t maxLocal start stop = (s.gather t start stop).drain t maxLocal := rfl

theorem State.gather_eq (t : Task) (s : State) (start stop : Nat) :
    (s.gather t start stop).chart = s.chart ∧ (s.gather t start stop).keys = s.keys ∧
      (s.gather t start stop).faulty = (s.faulty || isFaulty t s.chart start stop) ∧
      (s.gather t start stop).waiting = enqueue s.waiting (collected t s.chart start stop) :=
  State.pushAll_eq _ _

theorem State.tally_gather (t : Task) (s : State) (start stop : Nat) :
    (s.gather t start stop).tally = s.tally :=
  State.tally_pushAll _ _

/-! ## Seeding -/

/-- The layers that the seeds of a word are in. -/
def wordTargets (i : Nat) (nts : List NonTerminal) : List Target :=
  nts.map fun nt => ⟨⟨i, i + 1, nt⟩, 0⟩

/-- The state in which the seeding of a word empties the local queue: the unary edges over the
seeds wait. -/
def State.sow (t : Task) (s : State) (i : Nat) : State :=
  let (seeded, chart) := s.chart.seed t.grammar (t.sentence.token? i) i
  (wordTargets i seeded.toList).foldl (fun s target => s.pushUnaries t target)
    { s with chart, work := { s.work with committed := s.work.committed + seeded.size } }

theorem State.seedWord_eq (t : Task) (maxLocal : Nat) (s : State) (i : Nat) :
    s.seedWord t maxLocal i = (s.sow t i).drain t maxLocal := by
  unfold seedWord sow wordTargets
  dsimp only
  rw [List.foldl_map, Array.foldl_toList]

theorem State.sow_eq (t : Task) (s : State) (i : Nat) :
    ∃ before : State,
      before.chart = (s.chart.seed t.grammar (t.sentence.token? i) i).2 ∧
      before.keys = s.keys ∧ before.waiting = s.waiting ∧ before.faulty = s.faulty ∧
      Queues t before
        ((wordTargets i (s.chart.seed t.grammar (t.sentence.token? i) i).1.toList).flatMap
          (ratedUnaries t before.chart)) (s.sow t i) := by
  let seeded := s.chart.seed t.grammar (t.sentence.token? i) i
  exact ⟨{ s with
      chart := seeded.2
      work := { s.work with committed := s.work.committed + seeded.1.size } },
    rfl, rfl, rfl, rfl, queues_targets t _ _⟩

theorem State.visits_sow (t : Task) (s : State) (i : Nat) :
    (s.sow t i).work.visits = s.work.visits :=
  congrArg Prod.fst (tally_targets t _ _)

/-- The spans that have some word as a child. -/
def wordParents (size : Nat) (positions : List Nat) : List (Nat × Nat) :=
  positions.flatMap fun i => parents size i (i + 1)

theorem mem_wordParents {span : Nat × Nat} :
    span ∈ wordParents t.sentence.size (List.range t.sentence.size) ↔ Wide t span := by
  unfold wordParents
  rw [List.mem_flatMap]
  constructor
  · rintro ⟨i, hi, hmem⟩
    exact wide_of_mem_parents ⟨Nat.lt_succ_self i, List.mem_range.1 hi⟩ hmem
  · rintro ⟨hwide, hle⟩
    refine ⟨span.1, List.mem_range.2 (by omega), (mem_parents (by omega)).2 (Or.inr ?_)⟩
    exact ⟨rfl, by omega, hle⟩

theorem State.propagateAll_eq (t : Task) :
    ∀ (positions : List Nat) (s : State),
      positions.foldl (fun s i => s.propagate t i (i + 1)) s =
        s.rekeyAll t (wordParents s.chart.size positions)
  | [], _ => rfl
  | i :: positions, s => by
      rw [List.foldl_cons, propagateAll_eq t positions, propagate_eq, (rekeyAll_eq t _ s).1,
        ← rekeyAll_append]
      rfl

/-! ## Turns -/

theorem precedes_iff {x y : (Nat × Nat) × Score} :
    precedes x y = true ↔ y.2.rank < x.2.rank ∨ x.2.rank = y.2.rank ∧
      (x.1.2 - x.1.1 < y.1.2 - y.1.1 ∨
        x.1.2 - x.1.1 = y.1.2 - y.1.1 ∧ x.1.1 < y.1.1) := by
  simp only [precedes, Bool.or_eq_true, Bool.and_eq_true, decide_eq_true_eq]

theorem rank_le_of_not_precedes {x y : (Nat × Nat) × Score} (h : ¬ precedes x y = true) :
    x.2.rank ≤ y.2.rank := by
  rw [precedes_iff] at h
  omega

theorem not_precedes_trans {x y z : (Nat × Nat) × Score} (h : ¬ precedes x y = true)
    (h' : ¬ precedes y z = true) : ¬ precedes x z = true := by
  rw [precedes_iff] at *
  omega

theorem not_precedes_of_precedes {x y : (Nat × Nat) × Score} (h : precedes x y = true) :
    ¬ precedes y x = true := by
  rw [precedes_iff] at *
  omega

/-- Of two spans one is visited before the other. -/
theorem precedes_or_eq {x y : (Nat × Nat) × Score} (hx : x.1.1 ≤ x.1.2) (hy : y.1.1 ≤ y.1.2)
    (h : ¬ precedes y x = true) : precedes x y = true ∨ x.1 = y.1 := by
  obtain ⟨⟨start, stop⟩, fom⟩ := x
  obtain ⟨⟨start', stop'⟩, fom'⟩ := y
  rw [precedes_iff] at *
  rw [Prod.mk.injEq]
  dsimp only at *
  omega

section

-- The step of the fold in `State.top?`.
variable {f : Option ((Nat × Nat) × Score) → (Nat × Nat) × Score → Option ((Nat × Nat) × Score)}
  (hnone : ∀ x, f none x = some x)
  (hsome : ∀ b x, f (some b) x = if precedes x b = true then some x else some b)

include hsome

include hnone in
/-- No key, and not the one begun with, precedes what the fold gives. -/
theorem foldl_first (list : List ((Nat × Nat) × Score)) {best : Option ((Nat × Nat) × Score)}
    {x : (Nat × Nat) × Score} (hx : list.foldl f best = some x) :
    (x ∈ list ∨ best = some x) ∧ (∀ y ∈ list, ¬ precedes y x = true) ∧
      ∀ y, best = some y → ¬ precedes y x = true := by
  induction list generalizing best with
  | nil =>
      refine ⟨Or.inr hx, nofun, fun y hy => ?_⟩
      cases hy.symm.trans hx
      exact fun hself => not_precedes_of_precedes hself hself
  | cons z list ih =>
      obtain ⟨hmem, hlist, hbest⟩ := ih hx
      have htaken : f best z = some z → (x ∈ z :: list ∨ best = some x) ∧
          (∀ y ∈ z :: list, ¬ precedes y x = true) ∧ ¬ precedes z x = true := by
        intro hz
        rw [hz] at hmem hbest
        refine ⟨Or.inl ?_, List.forall_mem_cons.2 ⟨hbest z rfl, hlist⟩, hbest z rfl⟩
        rcases hmem with hold | heq
        · exact List.mem_cons_of_mem z hold
        · exact Option.some.inj heq ▸ List.mem_cons_self
      cases best with
      | none =>
          obtain ⟨hmem, hlist, -⟩ := htaken (hnone z)
          exact ⟨hmem, hlist, nofun⟩
      | some b =>
          rw [hsome] at hmem hbest htaken
          by_cases hprecedes : precedes z b = true
          · obtain ⟨hmem, hlist, hz⟩ := htaken (if_pos hprecedes)
            refine ⟨hmem, hlist, fun y hy => ?_⟩
            cases hy
            exact not_precedes_trans (not_precedes_of_precedes hprecedes) hz
          · rw [if_neg hprecedes] at hmem hbest
            have hb := hbest b rfl
            refine ⟨hmem.imp_left (List.mem_cons_of_mem z), List.forall_mem_cons.2
              ⟨not_precedes_trans hprecedes hb, hlist⟩, fun y hy => ?_⟩
            cases hy
            exact hb

theorem foldl_ne_none (list : List ((Nat × Nat) × Score)) (best : (Nat × Nat) × Score) :
    list.foldl f (some best) ≠ none := by
  induction list generalizing best with
  | nil => exact nofun
  | cons z list ih =>
      rw [List.foldl_cons, hsome]
      split
      · exact ih z
      · exact ih best

end

/-- The span visited next has a key, and no other key precedes it. -/
theorem State.top?_eq_some {s : State} {k : Nat × Nat} {fom : Score}
    (h : s.top? = some (k, fom)) :
    s.keys[k]? = some fom ∧ ∀ (k' : Nat × Nat) (fom' : Score), s.keys[k']? = some fom' →
      ¬ precedes (k', fom') (k, fom) = true := by
  obtain ⟨hmem, hlist, -⟩ := foldl_first (fun _ => rfl) (fun _ _ => rfl) _ h
  refine ⟨Std.TreeMap.mem_toList_iff_getElem?_eq_some.1 (hmem.resolve_right nofun), ?_⟩
  intro k' fom' hkey
  exact hlist (k', fom') (Std.TreeMap.mem_toList_iff_getElem?_eq_some.2 hkey)

theorem State.top?_eq_none {s : State} (h : s.top? = none) (k : Nat × Nat) :
    s.keys[k]? = none := by
  cases hkey : s.keys[k]? with
  | none => rfl
  | some fom =>
      have hmem := Std.TreeMap.mem_toList_iff_getElem?_eq_some.2 hkey
      unfold State.top? at h
      cases hlist : s.keys.toList with
      | nil => rw [hlist] at hmem; cases hmem
      | cons z list =>
          rw [hlist] at h
          exact absurd h (foldl_ne_none (fun _ _ => rfl) list z)

variable {p : SpanFirst} {s s' : State}

/-- The state in which a turn visits a span: its key is taken out. -/
def State.take (s : State) (k : Nat × Nat) (fom : Score) : State :=
  { s with
    keys := s.keys.erase k
    work := { s.work with visits := s.work.visits + 1 }
    notices := s.notices.push (.spanVisited k.1 k.2 fom) }

/-- A turn after which the search goes on visits the span whose key comes first. -/
theorem step_next (h : p.step t s = .next s') :
    ∃ (k : Nat × Nat) (fom : Score), s.top? = some (k, fom) ∧
      s' = ((s.take k fom).visit t p.maxLocal k.1 k.2).rekeyAll t
        (k :: parents ((s.take k fom).visit t p.maxLocal k.1 k.2).chart.size k.1 k.2) := by
  unfold step at h
  split at h
  · cases h
  · split at h
    · cases h
    · next start stop fom htop =>
      split at h
      · cases h
      · injection h with h
        refine ⟨(start, stop), fom, htop, ?_⟩
        rw [← h, State.propagate_eq, (State.rekey_eq t _ (start, stop)).1]
        rfl

/-- A search ends when the root is settled, when no span has a key, or after as many visits as
it may make. -/
theorem halt_cases (h : p.step t s = .halt s') :
    (s.isSettled t = true ∧ s' = s) ∨ (s.top? = none ∧ s' = s) ∨
      ((0 < p.maxVisits ∧ p.maxVisits ≤ s.work.visits) ∧
        s' = { s with notices := s.notices.push (.spansStopped s.work.visits) }) := by
  unfold step at h
  split at h
  · next hsettled =>
    cases h
    exact Or.inl ⟨hsettled, rfl⟩
  · split at h
    · next htop =>
      cases h
      exact Or.inr (Or.inl ⟨htop, rfl⟩)
    · split at h
      · next hvisits =>
        cases h
        exact Or.inr (Or.inr ⟨hvisits, rfl⟩)
      · cases h

/-- A turn that ends the search leaves the chart; without a bound on the visits, the root was
settled or no span had a key. -/
theorem step_halt (h : p.step t s = .halt s') :
    s'.chart = s.chart ∧ s'.faulty = s.faulty ∧
      (p.maxVisits = 0 → s.isSettled t = true ∨ s.top? = none) := by
  rcases halt_cases h with ⟨hsettled, rfl⟩ | ⟨htop, rfl⟩ | ⟨hvisits, rfl⟩
  · exact ⟨rfl, rfl, fun _ => Or.inl hsettled⟩
  · exact ⟨rfl, rfl, fun _ => Or.inr htop⟩
  · exact ⟨rfl, rfl, fun hzero => absurd hvisits.1 (by omega)⟩

/-- The search is a loop of these turns. -/
theorem runs (p : SpanFirst) (t : Task) :
    Loop.Runs (fun s s' => p.step t s = .next s') (fun s last => p.step t s = .halt last)
      (p.run t) where
  unique hstep hstep' := Turn.next.inj (hstep.symm.trans hstep')
  stops hhalt hstep := nomatch hhalt.symm.trans hstep
  zero _ := rfl
  succ turns s := by
    rw [run]
    cases hstep : p.step t s with
    | next s' => exact Or.inl ⟨s', rfl, rfl⟩
    | halt last => exact Or.inr rfl

end SpanFirst
end BestParse
