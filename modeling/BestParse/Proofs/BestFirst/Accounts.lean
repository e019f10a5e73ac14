import BestParse.Proofs.BestFirst.Log
import BestParse.Proofs.Queue.Arranged
import BestParse.Proofs.Queue.Stamped

/-!
# The accounts of a search

What a search reports of its work can be read off its history.  Each candidate it builds is
offered to the queue once, each edge the queue takes in is counted, and so is each edge it gives
out.  The history itself is one of a queue of the given kind, and the queue is as that history
leaves it (`Accounted`).

While an expansion offers its candidates they are built already, so the count of built edges is
*ahead* of the history by those still to be offered.  The invariant has this number, and at the
end of an expansion it is zero.

A stable queue declines nothing, so what was built was pushed, and what was pushed was popped or
still waits (`stable_loses_nothing`).
-/

namespace BestParse
namespace BestFirst

variable {b : BestFirst} {t : Task} {kind : QueueKind} {ahead : Nat} {s s' : State} {e : Edge}

/-! ## Counts and history -/

/-- The queue is as the history leaves it, and the counts are those of the history; so many of
the edges that were built are still to be offered. -/
structure Accounted (kind : QueueKind) (ahead : Nat) (s : State) : Prop where
  history : History kind s.history.toList
  queue : EdgeQueue.HasHistory kind s.queue s.history.toList
  pushes_eq : s.work.pushes = (pushed s.history.toList).length
  pops_eq : s.work.pops = (givenOut s.history.toList).length
  built_eq : s.work.built =
    (pushed s.history.toList).length + (declined s.history.toList).length + ahead

/-- Offering an edge, with what the queue answers. -/
theorem State.push_eq_offer (t : Task) (s : State) (e : Edge) :
    let rated := e.withFom (t.merit.score e s.chart)
    s.push t e = { s with
      queue := (s.queue.push rated).2
      work := if (s.queue.push rated).1 then { s.work with pushes := s.work.pushes + 1 } else s.work
      history := s.history.push (offerEvent (s.queue.push rated).1 rated)
      faulty := s.faulty || !t.merit.covers e } := by
  unfold State.push
  dsimp only
  split
  · next q hpush => simp [hpush, offerEvent]
  · next q hpush => simp [hpush, offerEvent]

namespace Accounted

/-- One of the edges that were built is offered. -/
theorem push (h : Accounted kind (ahead + 1) s) (t : Task) (e : Edge) :
    Accounted kind ahead (s.push t e) := by
  obtain ⟨hhistory, hqueue, hpushes, hpops, hbuilt⟩ := h
  rw [State.push_eq_offer]
  generalize e.withFom (t.merit.score e s.chart) = rated
  have hoffer := hhistory.offer rated
  have hafter := hqueue.push rated
  rw [← hqueue.push_fst rated] at hoffer hafter
  generalize (s.queue.push rated).1 = taken at hoffer hafter
  constructor
  · simpa using hoffer
  · simpa using hafter
  · cases taken <;> simpa [offerEvent] using hpushes
  · cases taken <;> simpa [offerEvent] using hpops
  · cases taken <;> simpa [offerEvent] using (by omega)

theorem pushAll (t : Task) : ∀ (es : List Edge) {s : State}, Accounted kind es.length s →
    Accounted kind 0 (es.foldl (fun s e => s.push t e) s)
  | [], _, h => h
  | e :: es, _, h => pushAll t es (h.push t e)

theorem expand (h : Accounted kind 0 s) (t : Task) (target : Target) (effect : Effect) :
    Accounted kind 0 (s.expand t target effect) :=
  pushAll t (candidates t s target effect)
    ⟨h.history, h.queue, h.pushes_eq, h.pops_eq, congrArg (· + _) h.built_eq⟩

theorem seedWord (h : Accounted kind 0 s) (t : Task) (i : Nat) :
    Accounted kind 0 (s.seedWord t i) := by
  unfold State.seedWord
  dsimp only
  rw [← Array.foldl_toList]
  exact List.foldlRecOn _ _ ⟨h.history, h.queue, h.pushes_eq, h.pops_eq, h.built_eq⟩
    fun _ hs nt _ => hs.expand t _ _

theorem seed (h : Accounted kind 0 s) (t : Task) (untilExhausted : Bool) :
    Accounted kind 0 (s.seed t untilExhausted) := by
  have hwords : Accounted kind 0
      ((List.range t.sentence.size).foldl (fun s i => s.seedWord t i) s) :=
    List.foldlRecOn _ _ h fun _ hs i _ => hs.seedWord t i
  exact ⟨hwords.history, hwords.queue, hwords.pushes_eq, hwords.pops_eq, hwords.built_eq⟩

/-- What the queue gives out is noted, and counted if it is an edge. -/
theorem pop (h : Accounted kind 0 s) {taken : Option Edge}
    (htop : s.queue.toList.head? = taken) :
    Accounted kind 0 { s with
      queue := s.queue.pop.2
      history := s.history.push (.popped taken)
      work := { s.work with pops := s.work.pops + taken.toList.length } } := by
  obtain ⟨hhistory, hqueue, hpushes, hpops, hbuilt⟩ := h
  rw [← EdgeQueue.fst_pop] at htop
  subst htop
  constructor
  · simpa using hhistory.pop hqueue.pop_firstOf
  · simpa using hqueue.pop
  · simpa using hpushes
  · simpa using hpops
  · simpa using hbuilt

/-- An edge that a turn takes was given out by the queue. -/
theorem dropped (h : Accounted kind 0 s) (htop : s.queue.toList.head? = some e) :
    Accounted kind 0 (s.dropped e) :=
  h.pop htop

theorem next (h : Accounted kind 0 s) (hstep : b.step t s = .next s') : Accounted kind 0 s' := by
  obtain ⟨-, -, e, htop, rfl⟩ := next_iff.1 hstep
  obtain ⟨hhistory, hqueue, hpushes, hpops, hbuilt⟩ := h.dropped htop
  unfold turned
  split
  · split
    · exact ⟨hhistory, hqueue, hpushes, hpops, hbuilt⟩
    · exact expand (s := s.taken t e) ⟨hhistory, hqueue, hpushes, hpops, hbuilt⟩ t _ _
  · exact ⟨hhistory, hqueue, hpushes, hpops, hbuilt⟩

theorem halt (h : Accounted kind 0 s) (hstep : b.step t s = .halt s') : Accounted kind 0 s' := by
  rcases halt_cases hstep with ⟨-, rfl⟩ | ⟨-, rfl⟩ | ⟨hempty, rfl⟩
  · exact h
  · exact ⟨h.history, h.queue, h.pushes_eq, h.pops_eq, h.built_eq⟩
  · exact h.pop (List.head?_eq_none_iff.2 hempty)

theorem run (b : BestFirst) (t : Task) (turns : Nat) (h : Accounted kind 0 s) :
    Accounted kind 0 (b.run t turns s) :=
  (runs b t).keeps (fun _ _ h hstep => h.next hstep) (fun _ _ h hstep => h.halt hstep) turns h

end Accounted

theorem accounted_start (b : BestFirst) (t : Task) : Accounted b.queue.kind 0 (b.start t) :=
  ⟨.start, EdgeQueue.hasHistory_empty _, rfl, rfl, rfl⟩

/-- What a parse reports and leaves is accounted for. -/
theorem accounted_parse (b : BestFirst) (t : Task) :
    ∃ s, Accounted b.queue.kind 0 s ∧ (b.parse t).1.work = s.work ∧
      (b.parse t).2.queue = s.queue ∧ (b.parse t).2.history = s.history := by
  have hrun := ((accounted_start b t).seed t b.untilExhausted).run b t (turns t b.maxChain)
  generalize hlast : b.run t (turns t b.maxChain) _ = last at hrun
  exact ⟨last, hrun, (parse_work_eq b t hlast).1, queue_parse b t hlast, history_parse b t hlast⟩

/-! ## Stable queues lose nothing -/

/-- With a stable queue the counts add up. -/
theorem Accounted.of_stable (h : Accounted .stable 0 s) :
    s.work.built = s.work.pushes ∧ s.work.pushes = s.work.pops + s.queue.size := by
  obtain ⟨hhistory, hqueue, hpushes, hpops, hbuilt⟩ := h
  have hlength := hhistory.pushed_perm.length_eq
  rw [List.length_append, ← hqueue.size_eq] at hlength
  rw [hhistory.declined_eq] at hbuilt
  exact ⟨hbuilt.trans hpushes.symm, by omega⟩

/-- A queue over a heap that is asked the same as the queue of a search answers the same. -/
theorem Accounted.heap_eq (h : Accounted .stable ahead s) (H : Heap Entry Entry.priority) :
    let served := (HeapQueue.ops H).after {} (asked s.history.toList)
    served.events = s.history.toList ∧ served.queue.size = s.queue.size := by
  intro served
  have hevents : served.events = s.history.toList :=
    (HeapQueue.implements H).after_asked HeapQueue.hasHistory_new h.history
  obtain ⟨-, hserved⟩ := (HeapQueue.implements H).history_after HeapQueue.hasHistory_new
    (asked s.history.toList)
  refine ⟨hevents, ?_⟩
  rw [h.queue.size_eq, ← hevents]
  exact hserved.size_eq

/-- A queue over a heap gives out, whatever the heap and after any requests, the edge of greatest
figure of merit that waits, and among equals the one that was pushed first.  Everything pushed is
given out once or still waits, and so all of it was given out when nothing comes.  Not a number
stands above all figures, and the two zeros are equals.

With such a queue every edge that a search builds is pushed, and it is popped or left in the
queue.  The history of the search is what a queue over a heap answers, and leaves as many edges
as it does. -/
theorem stable_loses_nothing :
    (∀ (H : Heap Entry Entry.priority) (requests : List QueueRequest),
      let s := (HeapQueue.ops H).after {} requests
      FirstOf (backlog .stable s.events) s.queue.pop.1 ∧
        s.queue.size = (backlog .stable s.events).length ∧
        (∀ e, (s.queue.push e).1 = true) ∧
        (pushed s.events).Perm (givenOut s.events ++ backlog .stable s.events) ∧
        (s.queue.pop.1 = none → (pushed s.events).Perm (givenOut s.events))) ∧
    (∀ x : Score, x ≠ .nan → x.rank < Score.nan.rank) ∧
    Score.negZero.rank = (Score.ofNat 0).rank ∧
    (∀ (b : BestFirst) (t : Task), b.queue.kind = .stable →
      let (report, after) := b.parse t
      report.work.built = report.work.pushes ∧
        report.work.pushes = report.work.pops + after.queue.size ∧
        ∀ H : Heap Entry Entry.priority,
          let s := (HeapQueue.ops H).after {} (asked after.history.toList)
          s.events = after.history.toList ∧ s.queue.size = after.queue.size) := by
  refine ⟨fun H requests => ?queue, fun x hx => ?order, by decide +kernel, fun b t hkind => ?run⟩
  case queue =>
    intro s
    obtain ⟨hhistory, hs⟩ :=
      (HeapQueue.implements H).history_after HeapQueue.hasHistory_new requests
    have hfirst : FirstOf (backlog .stable s.events) s.queue.pop.1 := hs.pop.1
    refine ⟨hfirst, hs.size_eq, fun _ => rfl, hhistory.pushed_perm, fun hnone => ?_⟩
    have hempty : backlog .stable s.events = [] := (hnone ▸ hfirst).eq_nil
    have hperm : (pushed s.events).Perm (givenOut s.events ++ backlog .stable s.events) :=
      hhistory.pushed_perm
    rwa [hempty, List.append_nil] at hperm
  case order =>
    have hle := mt Score.eq_nan_iff_rank.2 hx
    show x.rank < (overflowBound : Int) + 1
    omega
  case run =>
    obtain ⟨s, haccounted, hwork, hqueue, hhistory⟩ := accounted_parse b t
    rw [hkind] at haccounted
    dsimp only
    rw [hwork, hqueue, hhistory]
    exact ⟨haccounted.of_stable.1, haccounted.of_stable.2, haccounted.heap_eq⟩

/-- A search that may take one edge only leaves the other one in its queue, and so does a queue
over sorted lists. -/
theorem stable_loses_nothing_stopped :
    let (report, after) :=
      { BestFirst.new .ghost .heuristic .stable with maxPops := 1 }.parse circularTask
    report.work.built = report.work.pops + after.queue.size ∧ after.queue.size = 1 ∧
      ((HeapQueue.ops (Heap.sorted Entry.priority)).after {}
        (asked after.history.toList)).queue.size = 1 := by
  obtain ⟨-, -, -, hrun⟩ := stable_loses_nothing
  obtain ⟨hbuilt, hpushes, hheap⟩ :=
    hrun { BestFirst.new .ghost .heuristic .stable with maxPops := 1 } circularTask rfl
  have hsize : ({ BestFirst.new .ghost .heuristic .stable with maxPops := 1 }.parse
      circularTask).2.queue.size = 1 := by decide +kernel
  exact ⟨hbuilt.trans hpushes, hsize, (hheap _).2.trans hsize⟩

end BestFirst
end BestParse
