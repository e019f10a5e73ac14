import BestParse.Proofs.Queue.Arranged
import BestParse.Proofs.Queue.Stamped

/-!
# Memo queues over keyed heaps

A memo queue that keeps a heap of targets and two tables keeps three accounts of the same edges.
They agree because each says what the history says (`TableQueue.HasHistory`): the heap has the
targets of the edges that wait, numbered as they were pushed, one table has these edges, and the
other the last figure taken for each target, whether its edge still waits or not.

Each table is read at one target at a time, so what an operation does to it is an equation for
each target (`pending?_take`, `best?_take`, `pending?_without`).

The queue then implements its kind over every keyed heap (`TableQueue.implements`), its accounts
are coherent after any requests, and it answers as the queues of the searches do
(`tables_coherent`).
-/

namespace BestParse

/-- An entry as an item of a keyed heap: its target, with its priority. -/
def Entry.item (x : Entry) : Target × Priority := (x.edge.target, x.priority)

namespace TableQueue

variable {H : KeyedHeap Target} {q : TableQueue H} {events : List QueueEvent} {e f : Edge}
  {x : Entry} {τ : Target}

/-! ## The tables after an operation -/

@[simp] theorem pending?_take (q : TableQueue H) (e : Edge) (τ : Target) :
    (q.take e).pending? τ = if τ = e.target then some e else q.pending? τ :=
  TargetMap.getElem?_insert _ _ _ _

@[simp] theorem best?_take (q : TableQueue H) (e : Edge) (τ : Target) :
    (q.take e).best? τ = if τ = e.target then some e.fom else q.best? τ :=
  TargetMap.getElem?_insert _ _ _ _

/-- The queue without the edge for a target. -/
def without (q : TableQueue H) (heap : H.Carrier) (τ : Target) : TableQueue H :=
  { q with heap, pending := q.pending.erase τ.key }

@[simp] theorem pending?_without (q : TableQueue H) (heap : H.Carrier) (τ τ' : Target) :
    (q.without heap τ).pending? τ' = if τ' = τ then none else q.pending? τ' :=
  TargetMap.getElem?_erase _ _ _

theorem pop_of_none (hpop : H.pop q.heap = none) : q.pop = (none, q) := by
  rw [pop, hpop]

theorem pop_of_some {p : Priority} {rest : H.Carrier} (hpop : H.pop q.heap = some ((τ, p), rest)) :
    q.pop = (q.pending? τ, q.without rest τ) := by
  rw [pop, hpop]
  rfl

/-! ## Queues with a history -/

/-- What a queue over a keyed heap can do. -/
def ops (H : KeyedHeap Target) : QueueOps (TableQueue H) where
  push := push
  pop := pop
  reset := reset

/-- The heap, the tables and the counter say what the events say. -/
structure HasHistory (q : TableQueue H) (events : List QueueEvent) : Prop where
  heap : ∃ xs, Stamped xs q.serial (backlog .memo events) ∧
    ∀ z, z ∈ H.entries q.heap ↔ z ∈ xs.map Entry.item
  pending : ∀ τ e, q.pending? τ = some e ↔ e ∈ backlog .memo events ∧ e.target = τ
  best : ∀ τ, q.best? τ = (lastFor events τ).map Edge.fom
  suppressed : q.suppressed = (declined events).length

theorem hasHistory_new : HasHistory ({} : TableQueue H) [] where
  heap := ⟨[], .nil 0, by simp [H.entries_empty]⟩
  pending τ e := by simp [pending?]
  best τ := by simp [best?]
  suppressed := rfl

namespace HasHistory

theorem accepts_eq (h : q.HasHistory events) (e : Edge) : q.accepts e = takesIn .memo events e := by
  rw [accepts, h.best, takesIn]
  cases lastFor events e.target <;> rfl

theorem push_fst (h : q.HasHistory events) (e : Edge) : (q.push e).1 = takesIn .memo events e := by
  rw [← h.accepts_eq, push]
  cases q.accepts e <;> rfl

/-- The edge that is taken replaces the one that waits for its target, in the heap and in the
table. -/
theorem take (h : q.HasHistory events) (e : Edge) :
    (q.take e).HasHistory (events ++ [.pushed e]) where
  heap := by
    obtain ⟨xs, hstamped, hmem⟩ := h.heap
    refine ⟨_, by rw [backlog_concat]; exact (hstamped.filter _).concat e, fun z => ?_⟩
    rw [TableQueue.take, H.mem_push, hmem]
    simp only [List.map_append, List.map_cons, List.map_nil, List.mem_append, List.mem_singleton,
      List.mem_map, List.mem_filter, decide_eq_true_eq]
    constructor
    · rintro (rfl | ⟨⟨x, hx, rfl⟩, hne⟩)
      · exact Or.inr rfl
      · exact Or.inl ⟨x, ⟨hx, hne⟩, rfl⟩
    · rintro (⟨x, ⟨hx, hne⟩, rfl⟩ | rfl)
      · exact Or.inr ⟨⟨x, hx, rfl⟩, hne⟩
      · exact Or.inl rfl
  pending τ f := by
    rw [pending?_take, backlog_concat]
    simp only [outstanding, List.mem_append, List.mem_filter, decide_eq_true_eq, List.mem_singleton]
    by_cases hτ : τ = e.target
    · subst hτ
      rw [if_pos rfl]
      constructor
      · rintro ⟨⟩
        exact ⟨Or.inr rfl, rfl⟩
      · rintro ⟨⟨-, hne⟩ | rfl, hf⟩
        · exact absurd hf hne
        · rfl
    · rw [if_neg hτ, h.pending]
      constructor
      · rintro ⟨hf, rfl⟩
        exact ⟨Or.inl ⟨hf, hτ⟩, rfl⟩
      · rintro ⟨⟨hf, -⟩ | rfl, rfl⟩
        · exact ⟨hf, rfl⟩
        · exact absurd rfl hτ
  best τ := by
    rw [best?_take, lastFor_concat_pushed, h.best]
    by_cases hτ : τ = e.target
    · simp [hτ]
    · simp [hτ, Ne.symm hτ]
  suppressed := by
    rw [declined_concat_pushed]
    exact h.suppressed

theorem decline (h : q.HasHistory events) (e : Edge) :
    HasHistory { q with suppressed := q.suppressed + 1 } (events ++ [.declined e]) where
  heap := by
    rw [backlog_concat]
    exact h.heap
  pending := by
    rw [backlog_concat]
    exact h.pending
  best τ := by
    rw [lastFor_concat_declined]
    exact h.best τ
  suppressed := by simp [h.suppressed]

theorem push (h : q.HasHistory events) (e : Edge) :
    (q.push e).2.HasHistory (events ++ [offerEvent (takesIn .memo events e) e]) := by
  rw [← h.accepts_eq, TableQueue.push]
  cases q.accepts e with
  | true => exact h.take e
  | false => exact h.decline e

/-- Without the edge for a target, in the heap and in the table, the others still wait. -/
theorem without (h : q.HasHistory events) (hhistory : History .memo events)
    (he : e ∈ backlog .memo events) {rest : H.Carrier}
    (hheap : ∃ xs, Stamped xs q.serial ((backlog .memo events).erase e) ∧
      ∀ z, z ∈ H.entries rest ↔ z ∈ xs.map Entry.item) :
    (q.without rest e.target).HasHistory (events ++ [.popped (some e)]) where
  heap := by
    rw [backlog_concat]
    exact hheap
  pending τ f := by
    rw [pending?_without, backlog_concat, outstanding,
      mem_erase_iff_of_nodup_map hhistory.nodup_targets he]
    by_cases hτ : τ = e.target
    · subst hτ
      rw [if_pos rfl]
      refine iff_of_false (fun hnone => by cases hnone) ?_
      rintro ⟨⟨-, hne⟩, heq⟩
      exact hne heq
    · rw [if_neg hτ, h.pending]
      constructor
      · rintro ⟨hf, rfl⟩
        exact ⟨⟨hf, hτ⟩, rfl⟩
      · rintro ⟨⟨hf, -⟩, heq⟩
        exact ⟨hf, heq⟩
  best τ := by
    rw [lastFor_concat_popped]
    exact h.best τ
  suppressed := by
    rw [declined_concat_popped]
    exact h.suppressed

/-- What is taken out of the heap is the target of the first edge that waits. -/
theorem of_pop (h : q.HasHistory events) (hhistory : History .memo events) {p : Priority}
    {rest : H.Carrier} (hpop : H.pop q.heap = some ((τ, p), rest)) :
    ∃ e, q.pending? τ = some e ∧ FirstOf (backlog .memo events) (some e) ∧
      (q.without rest τ).HasHistory (events ++ [.popped (some e)]) := by
  obtain ⟨xs, hstamped, hmem⟩ := h.heap
  obtain ⟨x, hx, heq⟩ := List.mem_map.1 ((hmem _).1 (H.mem_of_pop hpop))
  obtain ⟨rfl, rfl⟩ := Prod.mk.inj heq
  have hgreatest : ∀ y ∈ xs, y.priority ≤ x.priority := fun y hy =>
    H.le_of_pop hpop _ ((hmem _).2 (List.mem_map_of_mem hy))
  have hwaits : x.edge ∈ backlog .memo events := hstamped.edges ▸ List.mem_map_of_mem hx
  have hnodup : (xs.map fun y => y.edge.target).Nodup := by
    have htargets := hhistory.nodup_targets
    rwa [← hstamped.edges, List.map_map] at htargets
  refine ⟨x.edge, (h.pending _ _).2 ⟨hwaits, rfl⟩, hstamped.firstOf hx hgreatest,
    h.without hhistory hwaits ⟨xs.erase x, hstamped.erase hx hgreatest, fun z => ?_⟩⟩
  rw [H.mem_rest hpop, hmem]
  simp only [List.mem_map, mem_erase_iff_of_nodup_map hnodup hx]
  constructor
  · rintro ⟨⟨y, hy, rfl⟩, hne⟩
    exact ⟨y, ⟨hy, hne⟩, rfl⟩
  · rintro ⟨y, ⟨hy, hne⟩, rfl⟩
    exact ⟨⟨y, hy, rfl⟩, hne⟩

theorem backlog_of_pop_eq_none (h : q.HasHistory events) (hpop : H.pop q.heap = none) :
    backlog .memo events = [] := by
  obtain ⟨xs, hstamped, hmem⟩ := h.heap
  simp only [H.entries_of_pop_eq_none hpop, List.not_mem_nil, false_iff] at hmem
  rw [← hstamped.edges, List.map_eq_nil_iff, ← List.map_eq_nil_iff (f := Entry.item)]
  exact List.eq_nil_iff_forall_not_mem.2 hmem

theorem pop (h : q.HasHistory events) (hhistory : History .memo events) :
    FirstOf (backlog .memo events) q.pop.1 ∧
      q.pop.2.HasHistory (events ++ [.popped q.pop.1]) := by
  cases hpop : H.pop q.heap with
  | none =>
      rw [pop_of_none hpop]
      have hbacklog := h.backlog_of_pop_eq_none hpop
      refine ⟨hbacklog ▸ .nothing, ?_⟩
      exact
        { heap := by simpa [outstanding] using h.heap
          pending := by simpa [outstanding] using h.pending
          best := by simpa using h.best
          suppressed := by simpa using h.suppressed }
  | some taken =>
      obtain ⟨⟨τ, p⟩, rest⟩ := taken
      obtain ⟨e, hpending, hfirst, hrest⟩ := h.of_pop hhistory hpop
      rw [pop_of_some hpop, hpending]
      exact ⟨hfirst, hrest⟩

theorem reset (q : TableQueue H) : q.reset.HasHistory [] where
  heap := ⟨[], .nil 0, by simp [TableQueue.reset, H.entries_clear]⟩
  pending τ e := by simp [TableQueue.reset, pending?]
  best τ := by simp [TableQueue.reset, best?]
  suppressed := rfl

end HasHistory

/-- A queue over a keyed heap is a memo queue, whatever the heap. -/
theorem implements (H : KeyedHeap Target) : (ops H).Implements .memo HasHistory where
  takes _ h e := h.push_fst e
  gives hhistory h := (h.pop hhistory).1
  push _ h e := h.push e
  pop hhistory h := (h.pop hhistory).2
  reset _ := HasHistory.reset _

/-! ## Coherence -/

/-- The accounts of a queue agree with each other and with the edges that wait. -/
structure Coherent (q : TableQueue H) (waiting : List Edge) : Prop where
  /-- The heap and the table of edges have the same targets. -/
  keys : ∀ τ, (∃ p, (τ, p) ∈ H.entries q.heap) ↔ ∃ e, q.pending? τ = some e
  /-- The table has each edge that waits at its target, and nothing else. -/
  waits : ∀ τ e, q.pending? τ = some e ↔ e ∈ waiting ∧ e.target = τ
  /-- At most one edge waits for each target. -/
  nodup_targets : (waiting.map Edge.target).Nodup
  size_eq : q.size = (waiting.map Edge.target).length
  /-- The priority of a target is the figure of its edge, with some number. -/
  priority : ∀ τ e, q.pending? τ = some e →
    ∃ serial, ∀ p, (τ, p) ∈ H.entries q.heap ↔ p = ⟨e.fom, serial⟩
  /-- The figure of an edge that waits is the best one for its target. -/
  best : ∀ τ e, q.pending? τ = some e → q.best? τ = some e.fom

namespace HasHistory

theorem coherent (h : q.HasHistory events) (hhistory : History .memo events) :
    q.Coherent (backlog .memo events) := by
  obtain ⟨xs, hstamped, hmem⟩ := h.heap
  have hnodup : (xs.map fun x => x.edge.target).Nodup := by
    have htargets := hhistory.nodup_targets
    rwa [← hstamped.edges, List.map_map] at htargets
  -- An edge that waits has an entry, and all entries for its target are that one.
  have hentry : ∀ τ e, q.pending? τ = some e →
      ∃ serial, ∀ p, (τ, p) ∈ H.entries q.heap ↔ p = ⟨e.fom, serial⟩ := by
    intro τ e hpending
    obtain ⟨he, rfl⟩ := (h.pending τ e).1 hpending
    rw [← hstamped.edges] at he
    obtain ⟨x, hx, rfl⟩ := List.mem_map.1 he
    refine ⟨x.priority.serial, fun p => ?_⟩
    rw [hmem, ← hstamped.fom_eq x hx, List.mem_map]
    constructor
    · rintro ⟨y, hy, heq⟩
      obtain ⟨htarget, rfl⟩ := Prod.mk.inj heq
      rw [List.inj_on_of_nodup_map hnodup hy hx htarget]
    · rintro rfl
      exact ⟨x, hx, rfl⟩
  refine ⟨fun τ => ⟨?_, ?_⟩, h.pending, hhistory.nodup_targets, ?_, hentry, ?_⟩
  · rintro ⟨p, hp⟩
    obtain ⟨x, hx, heq⟩ := List.mem_map.1 ((hmem _).1 hp)
    have hwaits : x.edge ∈ backlog .memo events := hstamped.edges ▸ List.mem_map_of_mem hx
    exact ⟨x.edge, (h.pending τ _).2 ⟨hwaits, congrArg Prod.fst heq⟩⟩
  · rintro ⟨e, he⟩
    obtain ⟨serial, hp⟩ := hentry τ e he
    exact ⟨_, (hp _).2 rfl⟩
  · have hperm : (H.entries q.heap).Perm (xs.map Entry.item) := by
      refine (List.perm_ext_iff_of_nodup (List.Nodup.of_map _ (H.nodup_items _)) ?_).2 hmem
      exact List.Nodup.of_map Prod.fst (by rwa [List.map_map])
    rw [size, H.size_eq, hperm.length_eq, ← hstamped.edges]
    simp only [List.length_map]
  · intro τ e hpending
    obtain ⟨he, rfl⟩ := (h.pending τ e).1 hpending
    rw [h.best, hhistory.lastFor_of_mem he]
    rfl

/-- Giving an edge out removes it from the heap and from the table, and nothing else from
either; the best figures stay. -/
theorem pop_removes (h : q.HasHistory events) (hpop : q.pop.1 = some e) (τ : Target) :
    q.pop.2.pending? τ = (if τ = e.target then none else q.pending? τ) ∧
      (∀ p, (τ, p) ∈ H.entries q.pop.2.heap ↔ (τ, p) ∈ H.entries q.heap ∧ τ ≠ e.target) ∧
      q.pop.2.best? τ = q.best? τ := by
  cases hheap : H.pop q.heap with
  | none =>
      rw [pop_of_none hheap] at hpop
      cases hpop
  | some taken =>
      obtain ⟨⟨τ', p⟩, rest⟩ := taken
      rw [pop_of_some hheap] at hpop ⊢
      obtain ⟨-, rfl⟩ := (h.pending τ' e).1 hpop
      exact ⟨pending?_without _ _ _ _, fun p => H.mem_rest hheap (τ, p), rfl⟩

end HasHistory

/-- Over any keyed heap and after any requests, a memo queue has coherent accounts of the edges
that wait; it takes an edge if none was taken for its target since the last reset or the edge is
better than the last one taken; it gives out the first edge that waits, which is none only if
nothing waits, and removes only that; it counts what it declined; and it answers as the queue of
the searches does. -/
theorem tables_coherent (H : KeyedHeap Target) (requests : List QueueRequest) :
    let s := (ops H).after {} requests
    let listed := EdgeQueue.ops.after (.empty .memo) requests
    s.queue.Coherent (backlog .memo s.events) ∧
      (∀ e, (s.queue.push e).1 = true ↔
        ∀ last, lastFor s.events e.target = some last → e.fom.improves last.fom = true) ∧
      FirstOf (backlog .memo s.events) s.queue.pop.1 ∧
      (∀ e, s.queue.pop.1 = some e → ∀ τ,
        s.queue.pop.2.pending? τ = (if τ = e.target then none else s.queue.pending? τ) ∧
        (∀ p, (τ, p) ∈ H.entries s.queue.pop.2.heap ↔
          (τ, p) ∈ H.entries s.queue.heap ∧ τ ≠ e.target) ∧
        s.queue.pop.2.best? τ = s.queue.best? τ) ∧
      s.queue.suppressed = (declined s.events).length ∧
      listed.events = s.events ∧ listed.queue.size = s.queue.size ∧
      listed.queue.suppressed? = some s.queue.suppressed ∧
      ∀ τ, listed.queue.bestPushed? τ = s.queue.best? τ := by
  intro s listed
  obtain ⟨hhistory, hs⟩ := (implements H).history_after hasHistory_new requests
  obtain ⟨-, hlisted⟩ :=
    (EdgeQueue.implements .memo).history_after (EdgeQueue.hasHistory_empty .memo) requests
  have hevents : listed.events = s.events :=
    (EdgeQueue.implements .memo).events_eq (implements H) (EdgeQueue.hasHistory_empty .memo)
      hasHistory_new requests
  change EdgeQueue.HasHistory .memo listed.queue listed.events at hlisted
  rw [hevents] at hlisted
  have hcoherent := hs.coherent hhistory
  have haccepts : ∀ e, (s.queue.push e).1 = true ↔
      ∀ last, lastFor s.events e.target = some last → e.fom.improves last.fom = true := by
    intro e
    rw [hs.push_fst e, takesIn, Option.all_eq_true]
  refine ⟨hcoherent, haccepts, (hs.pop hhistory).1, fun e hpop => hs.pop_removes hpop,
    hs.suppressed, hevents, ?size, ?suppressed, ?best⟩
  case size => rw [hlisted.size_eq, hcoherent.size_eq, List.length_map]
  case suppressed => rw [hlisted.suppressed?_eq, hs.suppressed]
  case best => exact fun τ => (hlisted.bestPushed?_eq τ).trans (hs.best τ).symm

/-- A better edge replaces the one that waits for its target, and a worse one is declined.  Of
two zeros the one that was taken in first is given out first. -/
theorem tables_coherent_zeros :
    let early : Edge := { (default : Edge) with fom := .negInf }
    let better : Edge := { (default : Edge) with fom := .ofNat 0 }
    let other : Edge := { (default : Edge) with layer := 1, fom := .negZero }
    let q := ((ops (KeyedHeap.sorted Target)).after {}
      [.push early, .push other, .push better, .push early]).queue
    q.Coherent [other, better] ∧ q.pop.1 = some other ∧
      q.pop.2.pending? other.target = none ∧ q.pop.2.pending? better.target = some better ∧
      q.pop.2.best? other.target = some .negZero ∧ q.suppressed = 1 := by
  intro early better other q
  obtain ⟨hcoherent, -, -, hremoves, hsuppressed, -⟩ :=
    tables_coherent (KeyedHeap.sorted Target) [.push early, .push other, .push better, .push early]
  have hpop : q.pop.1 = some other := by decide +kernel
  obtain ⟨hother, -, hbest⟩ := hremoves other hpop other.target
  obtain ⟨hbetter, -, -⟩ := hremoves other hpop better.target
  refine ⟨hcoherent, hpop, hother, hbetter.trans ?_, hbest.trans ?_, hsuppressed⟩
  · decide +kernel
  · decide +kernel

end TableQueue

end BestParse
