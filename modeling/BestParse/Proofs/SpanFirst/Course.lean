import BestParse.Proofs.Chart.Course
import BestParse.Proofs.BestFirst.Termination
import BestParse.Proofs.SpanFirst.Steps

/-!
# The course of span-first search

Span-first search follows a course whose edges in hand are those that wait in the local
queue.  It commits improving edges only, whatever the figure of merit, so its chart is sound
besides.

`Orderly` is what holds of every state: the course, that only open spans of two words or
more have a key, and that faults are those of the task.  It bounds the work of the local
queue: every commit uses up room in the chart and queues at most one edge for each
production.  So the queue is empty after every visit (`drain_induction`).
-/

namespace BestParse
namespace SpanFirst

open Chart
open BestFirst (Faults room room_store_lt length_unaryCandidates_le mem_unaryCandidates)
open Edge (licensed_unary licensed_binary)

variable {t : Task} {chain : Nat} {c : Chart} {e : Edge}

/-! ## Edges as they are made -/

theorem made_ratedUnaries (hg : t.grammar.WellFormed) (hc : c.IsFor t chain) {target : Target}
    (htarget : c.HasTarget target) (he : e ∈ State.ratedUnaries t c target) :
    e.Licensed t chain ∧ e.scoreOver? t.grammar c = some e.inside := by
  obtain ⟨f, hf, rfl⟩ := List.mem_map.1 he
  obtain ⟨hlayer, hopen, id, x, hid, hexp, hallows, hx, rfl⟩ := (mem_unaryCandidates hg).1 hf
  have hspan := htarget.1.1
  rw [hc.size_eq] at hspan
  rw [hc.maxChain_eq] at hlayer
  obtain ⟨hlicensed, hscore⟩ := licensed_unary hspan hlayer hid hexp hopen hallows hx
  exact ⟨hlicensed.withFom _, hscore⟩

theorem made_binaryEdges (hg : t.grammar.WellFormed) {span : Nat × Nat} (hwide : Wide t span)
    (hopen : t.limits.isOpen span.1 span.2 = true) (he : e ∈ binaryEdges t c span.1 span.2) :
    e.Licensed t chain ∧ e.scoreOver? t.grammar c = some e.inside := by
  obtain ⟨id, l, r, mid, x, hjoins, hallows, rfl⟩ := joins_of_mem_binaryEdges hg he
  exact licensed_binary hwide.2 hjoins.production_lt hjoins.expansion_eq hopen hjoins.split hallows
    hjoins.combine_eq

theorem made_collected (hg : t.grammar.WellFormed) {span : Nat × Nat} (hwide : Wide t span)
    (hopen : t.limits.isOpen span.1 span.2 = true) (he : e ∈ collected t c span.1 span.2) :
    e.Licensed t chain ∧ e.scoreOver? t.grammar c = some e.inside := by
  obtain ⟨f, hf, rfl⟩ := mem_collected he
  obtain ⟨hlicensed, hscore⟩ := made_binaryEdges hg hwide hopen (mem_improvingEdges.1 hf).1
  exact ⟨hlicensed.withFom _, hscore⟩

/-! ## Keys and faults -/

theorem isOpen_of_keyOf? {span : Nat × Nat} {fom : Score} (h : keyOf? t c span = some fom) :
    t.limits.isOpen span.1 span.2 = true := by
  unfold keyOf? bestFom at h
  cases hopen : t.limits.isOpen span.1 span.2 with
  | true => rfl
  | false =>
      rw [hopen] at h
      cases h

theorem faults_of_isFaulty {span : Nat × Nat} (hwide : Wide t span)
    (hopen : t.limits.isOpen span.1 span.2 = true) (h : isFaulty t c span.1 span.2 = true) :
    Faults t := by
  unfold isFaulty at h
  rw [Bool.or_eq_true, Bool.not_eq_true', List.any_eq_true] at h
  rcases h with hfit | ⟨f, -, hcovers⟩
  · exact Or.inl ⟨span.1, span.2, hwide.1, hwide.2, hopen, hfit⟩
  · exact Or.inr ⟨f, Bool.not_eq_true' _ ▸ hcovers⟩

/-! ## Orderly states -/

/-- The state is on the course, its keys are of open spans of two words or more, and its
faults are those of the task. -/
structure Orderly (t : Task) (chain : Nat) (s : State) : Prop where
  course : Improving t chain s.chart s.waiting.entries
  wide : ∀ (k : Nat × Nat) (fom : Score), s.keys[k]? = some fom →
    Wide t k ∧ t.limits.isOpen k.1 k.2 = true
  fault : s.faulty = true → Faults t

variable {s s' : State}

/-- The layers of a word's seeds are in the chart. -/
theorem hasTarget_word (hg : t.grammar.WellFormed) {i : Nat} (hi : i < t.sentence.size)
    (hc : c.IsFor t chain) {c' : Chart} {target : Target}
    (htarget : target ∈ wordTargets i (c'.seed t.grammar (t.sentence.token? i) i).1.toList) :
    c.HasTarget target := by
  obtain ⟨nt, hnt, rfl⟩ := List.mem_map.1 htarget
  rw [seed_eq] at hnt
  obtain ⟨id, hid, rfl⟩ := List.mem_map.1 (mem_fst_seedAll hnt)
  exact hc.hasTarget_mk ⟨Nat.lt_succ_self i, hi⟩ (hg.parent_lt id (hg.mem_lexicalWith.1 hid).1)
    (Nat.zero_le _)

namespace Orderly

theorem sound (h : Orderly t chain s) (hg : t.grammar.WellFormed) : s.chart.Sound t chain :=
  h.course.sound hg

theorem start (t : Task) (chain : Nat) :
    Orderly t chain { chart := Chart.empty t.grammar t.sentence.size chain } where
  course := Course.start
  wide k fom hkey := by
    rw [Std.TreeMap.getElem?_emptyc] at hkey
    cases hkey
  fault := nofun

/-- Edges made from the current scores are queued. -/
theorem queues (h : Orderly t chain s) {es : List Edge}
    (hes : ∀ e ∈ es, e.Licensed t chain ∧ e.scoreOver? t.grammar s.chart = some e.inside)
    (hqueues : State.Queues t s es s') : Orderly t chain s' where
  course := by
    rw [hqueues.chart_eq, hqueues.waiting_eq]
    refine (h.course.makeAll es hes).keep fun f hf => ?_
    exact List.mem_append.2 ((mem_enqueue es).1 hf).symm
  wide := hqueues.keys_eq ▸ h.wide
  fault hfaulty := (hqueues.faulty hfaulty).elim h.fault Or.inr

theorem rekeyAll (h : Orderly t chain s) {spans : List (Nat × Nat)}
    (hspans : ∀ span ∈ spans, Wide t span) : Orderly t chain (s.rekeyAll t spans) := by
  obtain ⟨hchart, hwaiting, hfaulty, hkeys⟩ := State.rekeyAll_eq t spans s
  refine ⟨?_, fun k fom hkey => ?_, fun hfault => ?_⟩
  · rw [hchart, hwaiting]
    exact h.course
  · rw [hkeys] at hkey
    split at hkey
    · next hmem => exact ⟨hspans k hmem, isOpen_of_keyOf? hkey⟩
    · exact h.wide k fom hkey
  · rw [hfaulty, Bool.or_eq_true, List.any_eq_true] at hfault
    rcases hfault with hold | ⟨span, hmem, hnew⟩
    · exact h.fault hold
    · rw [Bool.and_eq_true] at hnew
      exact faults_of_isFaulty (hspans span hmem) hnew.1 hnew.2

/-! ## Emptying the local queue -/

theorem hasTarget_head (h : Orderly t chain s) (hg : t.grammar.WellFormed)
    (hhead : s.waiting.entries.head? = some e) : s.chart.HasTarget e.target :=
  (h.course.licensed hg (List.mem_of_mem_head? hhead)).hasTarget hg (h.sound hg).isFor

theorem admits (h : Orderly t chain s) (hg : t.grammar.WellFormed)
    (hhead : s.waiting.entries.head? = some e) (hadmits : State.Admits t s e s') :
    Orderly t chain s' := by
  cases hadmits with
  | skip declined chart_eq keys_eq waiting_eq faulty_eq =>
      refine ⟨?_, keys_eq ▸ h.wide, faulty_eq ▸ h.fault⟩
      rw [chart_eq, waiting_eq]
      exact h.course.keep fun f hf => List.mem_of_mem_tail hf
  | commit before queues accepted chart_eq keys_eq waiting_eq faulty_eq =>
      have htarget := h.hasTarget_head hg hhead
      have hbefore : Orderly t chain before := by
        refine ⟨?_, keys_eq ▸ h.wide, faulty_eq ▸ h.fault⟩
        rw [chart_eq, waiting_eq]
        exact (h.course.commit (List.mem_of_mem_head? hhead) accepted).keep fun f hf =>
          List.mem_of_mem_tail hf
      refine hbefore.queues (fun f hf => ?_) queues
      refine made_ratedUnaries hg (hbefore.sound hg).isFor ?_ hf
      rw [chart_eq]
      exact htarget

end Orderly

/-- The edges that wait for admission, and those that can still be made. -/
def measure (t : Task) (s : State) : Nat :=
  s.waiting.entries.length + t.grammar.numProductions * room .inside s.chart

theorem Orderly.room_le (h : Orderly t chain s) (hg : t.grammar.WellFormed)
    (hhead : s.waiting.entries.head? = some e) (hadmits : State.Admits t s e s') :
    room .inside s'.chart ≤ room .inside s.chart := by
  cases hadmits with
  | skip declined chart_eq keys_eq waiting_eq faulty_eq => rw [chart_eq]
  | commit before queues accepted chart_eq keys_eq waiting_eq faulty_eq =>
      rw [queues.chart_eq, chart_eq]
      exact Nat.le_of_lt
        (room_store_lt (h.sound hg).coherent.sized (h.hasTarget_head hg hhead) accepted)

theorem Orderly.measure_lt (h : Orderly t chain s) (hg : t.grammar.WellFormed)
    (hhead : s.waiting.entries.head? = some e) (hadmits : State.Admits t s e s') :
    measure t s' < measure t s := by
  obtain ⟨rest, hlist⟩ := List.head?_eq_some_iff.1 hhead
  unfold measure
  rw [hlist, List.length_cons]
  cases hadmits with
  | skip declined chart_eq keys_eq waiting_eq faulty_eq =>
      rw [chart_eq, waiting_eq, hlist, List.tail_cons]
      omega
  | commit before queues accepted chart_eq keys_eq waiting_eq faulty_eq =>
      have hroom : room .inside (s.chart.store t.grammar e) < room .inside s.chart :=
        room_store_lt (h.sound hg).coherent.sized (h.hasTarget_head hg hhead) accepted
      have hmade := length_unaryCandidates_le hg before.chart e.target
      rw [queues.waiting_eq, length_enqueue, waiting_eq, hlist, List.tail_cons, queues.chart_eq,
        State.ratedUnaries, List.length_map, chart_eq]
      rw [chart_eq] at hmade
      have hle := BestFirst.measure_le t.grammar.numProductions
        (Nat.add_le_add_left hmade rest.length) hroom
      omega

theorem room_le_numLayers (c : Chart) : room .inside c ≤ c.numLayers * UInt32.size :=
  Nat.le_trans (BestFirst.room_le .inside c) (Nat.mul_le_mul_left _ (Nat.sub_le (2 ^ 32) 1))

theorem measure_lt_admissions (t : Task) (s : State) : measure t s < s.admissions t := by
  have hroom := Nat.mul_le_mul_left t.grammar.numProductions (room_le_numLayers s.chart)
  rw [Nat.mul_comm t.grammar.numProductions (s.chart.numLayers * UInt32.size)] at hroom
  unfold measure State.admissions StableQueue.size
  omega

/-- Emptying the local queue leaves it empty and keeps an invariant of its rounds. -/
theorem drain_induction (hg : t.grammar.WellFormed) (maxLocal : Nat) {I : State → Prop}
    (hround : ∀ s e s', Orderly t chain s → I s → s.waiting.entries.head? = some e →
      State.Admits t s e s' → I s')
    (h : Orderly t chain s) (hI : I s) :
    Orderly t chain (s.drain t maxLocal) ∧ I (s.drain t maxLocal) ∧
      (s.drain t maxLocal).waiting.entries = [] := by
  have hkept := State.drainFrom_keeps (t := t) (I := fun s => Orderly t chain s ∧ I s) maxLocal
    (fun s e s' hs hhead hadmits =>
      ⟨hs.1.admits hg hhead hadmits, hround s e s' hs.1 hs.2 hhead hadmits⟩)
    (s.admissions t) 0 s ⟨h, hI⟩
  have hended := State.drainFrom_ends (t := t) (I := Orderly t chain) maxLocal
    (measure t) (fun s e s' hs hhead hadmits =>
      ⟨hs.admits hg hhead hadmits, hs.measure_lt hg hhead hadmits⟩)
    (s.admissions t) 0 s h (measure_lt_admissions t s)
  exact ⟨hkept.1, hkept.2, hended⟩

namespace Orderly

theorem drain (h : Orderly t chain s) (hg : t.grammar.WellFormed) (maxLocal : Nat) :
    Orderly t chain (s.drain t maxLocal) :=
  (drain_induction hg maxLocal (I := fun _ => True) (fun _ _ _ _ _ _ _ => trivial) h trivial).1

/-- The first edge that waits is committed if it is an improvement, and the loop goes on from
there. -/
theorem drain_first (h : Orderly t chain s) (hg : t.grammar.WellFormed) (maxLocal : Nat)
    (hhead : s.waiting.entries.head? = some e) (haccepts : s.chart.accepts e = true) :
    ∃ turns admitted s₁, Orderly t chain s₁ ∧ s₁.chart = s.chart.store t.grammar e ∧
      s.work.committed < s₁.work.committed ∧
      s.drain t maxLocal = State.drainFrom t maxLocal turns admitted s₁ := by
  obtain ⟨admitted, s₁, hadmits, -, hstored, heq⟩ := State.drainFrom_cons t maxLocal 0 hhead
  obtain ⟨hchart, hcommitted⟩ := hstored rfl haccepts
  exact ⟨_, admitted, s₁, h.admits hg hhead hadmits, hchart, hcommitted, heq _⟩

/-- Then room is used up. -/
theorem room_drain_lt (h : Orderly t chain s) (hg : t.grammar.WellFormed) (maxLocal : Nat)
    (hhead : s.waiting.entries.head? = some e) (haccepts : s.chart.accepts e = true) :
    room .inside (s.drain t maxLocal).chart < room .inside s.chart := by
  obtain ⟨turns, admitted, s₁, hs₁, hchart, -, heq⟩ := h.drain_first hg maxLocal hhead haccepts
  have hlt : room .inside s₁.chart < room .inside s.chart := by
    rw [hchart]
    exact room_store_lt (h.sound hg).coherent.sized (h.hasTarget_head hg hhead) haccepts
  have hrest := State.drainFrom_keeps (t := t)
    (I := fun s => Orderly t chain s ∧ room .inside s.chart ≤ room .inside s₁.chart) maxLocal
    (fun s e s' hs hhead hadmits => ⟨hs.1.admits hg hhead hadmits,
      Nat.le_trans (hs.1.room_le hg hhead hadmits) hs.2⟩) turns admitted s₁ ⟨hs₁, Nat.le_refl _⟩
  rw [heq]
  exact Nat.lt_of_le_of_lt hrest.2 hlt

/-! ## Seeds and visits -/

theorem gather (h : Orderly t chain s) (hg : t.grammar.WellFormed) {span : Nat × Nat}
    (hwide : Wide t span) (hopen : t.limits.isOpen span.1 span.2 = true) :
    Orderly t chain (s.gather t span.1 span.2) := by
  obtain ⟨hchart, hkeys, hfaulty, hwaiting⟩ := s.gather_eq t span.1 span.2
  refine ⟨?_, hkeys ▸ h.wide, fun hfault => ?_⟩
  · rw [hchart, hwaiting]
    refine (h.course.makeAll _ fun f hf => made_collected hg hwide hopen hf).keep fun f hf => ?_
    exact List.mem_append.2 ((mem_enqueue _).1 hf).symm
  · rw [hfaulty, Bool.or_eq_true] at hfault
    exact hfault.elim h.fault (faults_of_isFaulty hwide hopen)

theorem visit (h : Orderly t chain s) (hg : t.grammar.WellFormed) (maxLocal : Nat)
    {span : Nat × Nat} (hwide : Wide t span) (hopen : t.limits.isOpen span.1 span.2 = true) :
    Orderly t chain (s.visit t maxLocal span.1 span.2) :=
  (h.gather hg hwide hopen).drain hg maxLocal

theorem sow (h : Orderly t chain s) (hg : t.grammar.WellFormed) {i : Nat}
    (hi : i < t.sentence.size) : Orderly t chain (s.sow t i) := by
  obtain ⟨before, hchart, hkeys, hwaiting, hfaulty, hqueues⟩ := s.sow_eq t i
  have hbefore : Orderly t chain before := by
    refine ⟨?_, hkeys ▸ h.wide, hfaulty ▸ h.fault⟩
    rw [hchart, hwaiting]
    exact h.course.seed hg (fun _ _ haccepts => haccepts) hi
  refine hbefore.queues (fun f hf => ?_) hqueues
  obtain ⟨target, htarget, hf⟩ := List.mem_flatMap.1 hf
  exact made_ratedUnaries hg (hbefore.sound hg).isFor
    (hasTarget_word hg hi (hbefore.sound hg).isFor htarget) hf

theorem seedWord (h : Orderly t chain s) (hg : t.grammar.WellFormed) (maxLocal : Nat) {i : Nat}
    (hi : i < t.sentence.size) : Orderly t chain (s.seedWord t maxLocal i) := by
  rw [State.seedWord_eq]
  exact (h.sow hg hi).drain hg maxLocal

theorem words (h : Orderly t chain s) (hg : t.grammar.WellFormed) (maxLocal : Nat) :
    ∀ n ≤ t.sentence.size,
      Orderly t chain ((List.range n).foldl (fun s i => s.seedWord t maxLocal i) s) :=
  Loop.foldl_range (I := fun _ s => Orderly t chain s)
    (fun _ _ hi hs => hs.seedWord hg maxLocal hi) h

theorem seed (h : Orderly t chain s) (hg : t.grammar.WellFormed) (maxLocal : Nat) :
    Orderly t chain (s.seed t maxLocal) := by
  have hwords := h.words hg maxLocal _ (Nat.le_refl _)
  unfold State.seed
  dsimp only
  rw [State.propagateAll_eq, (hwords.sound hg).isFor.size_eq]
  exact hwords.rekeyAll fun span => mem_wordParents.1

/-! ## Turns -/

theorem take (h : Orderly t chain s) (k : Nat × Nat) (fom : Score) :
    Orderly t chain (s.take k fom) := by
  refine ⟨h.course, fun k' fom' hkey => ?_, h.fault⟩
  simp only [State.take, Std.TreeMap.getElem?_erase] at hkey
  split at hkey
  · cases hkey
  · exact h.wide k' fom' hkey

theorem next {p : SpanFirst} (h : Orderly t chain s) (hg : t.grammar.WellFormed)
    (hstep : p.step t s = .next s') : Orderly t chain s' := by
  obtain ⟨k, fom, htop, rfl⟩ := step_next hstep
  obtain ⟨hwide, hopen⟩ := h.wide k fom (State.top?_eq_some htop).1
  have hvisit := (h.take k fom).visit hg p.maxLocal hwide hopen
  rw [(hvisit.sound hg).isFor.size_eq]
  exact hvisit.rekeyAll (List.forall_mem_cons.2 ⟨hwide, fun _ =>
    wide_of_mem_parents hwide.isSpan⟩)

end Orderly

/-! ## Whole searches -/

/-- The state in which the turns begin. -/
def seeded (p : SpanFirst) (t : Task) : State :=
  State.seed t p.maxLocal { chart := Chart.empty t.grammar t.sentence.size p.maxChain }

/-- What a parse reports is where the search ended. -/
theorem parse_eq (p : SpanFirst) (t : Task) {s : State}
    (hs : p.run t (turns (seeded p t).chart) (seeded p t) = s) :
    (p.parse t).chart = s.chart ∧ (p.parse t).faulty = s.faulty ∧
      (p.parse t).outcome = s.chart.outcome t.grammar := by
  rw [parse, search]
  unfold seeded at hs
  rw [hs]
  exact ⟨rfl, rfl, rfl⟩

theorem orderly_seeded (hg : t.grammar.WellFormed) (p : SpanFirst) :
    Orderly t p.maxChain (seeded p t) :=
  (Orderly.start t p.maxChain).seed hg p.maxLocal

/-- The chart of a parse, its outcome and its faults are those of an orderly state. -/
theorem orderly_parse (hg : t.grammar.WellFormed) (p : SpanFirst) :
    ∃ s, Orderly t p.maxChain s ∧ (p.parse t).chart = s.chart ∧
      (p.parse t).outcome = s.chart.outcome t.grammar ∧ (p.parse t).faulty = s.faulty := by
  obtain ⟨s, hs, hended⟩ := (runs p t).ends (I := Orderly t p.maxChain)
    (fun s s' hs hstep => hs.next hg hstep) (turns (seeded p t).chart) _ (orderly_seeded hg p)
  generalize hlast : p.run t (turns (seeded p t).chart) (seeded p t) = last at hended
  obtain ⟨hchart, hfaulty, houtcome⟩ := parse_eq p t hlast
  obtain ⟨hchart', hfaulty'⟩ : last.chart = s.chart ∧ last.faulty = s.faulty := by
    rcases hended with rfl | hhalt
    · exact ⟨rfl, rfl⟩
    · obtain ⟨hchart', hfaulty', -⟩ := step_halt hhalt
      exact ⟨hchart', hfaulty'⟩
  exact ⟨s, hs, hchart.trans hchart', hchart' ▸ houtcome, hfaulty.trans hfaulty'⟩

/-- A parse commits improving edges only, whatever the figure of merit and the bounds. -/
theorem improving_parse (hg : t.grammar.WellFormed) (p : SpanFirst) :
    (∃ es, Improving t p.maxChain (p.parse t).chart es) ∧
      (p.parse t).outcome = (p.parse t).chart.outcome t.grammar := by
  obtain ⟨s, hs, hchart, houtcome, -⟩ := orderly_parse hg p
  rw [hchart]
  exact ⟨⟨_, hs.course⟩, houtcome⟩

end SpanFirst
end BestParse
