import BestParse.Proofs.Queue.History
import BestParse.Search.Queue.Heap

/-!
# Queues over heaps

A heap says nothing of the order of its entries, but the numbers of their pushes do.  In the
order of these numbers the entries are the edges that wait as they were taken in (`Stamped`),
and an entry of greatest priority is the first of them: an earlier one with the same figure of
merit would have a greater priority, since no two numbers are equal (`Stamped.firstOf`).

So a queue that keeps its edges in a heap, whatever the heap, is a stable queue
(`HeapQueue.implements`).
-/

namespace BestParse

/-! ## Numbered edges -/

/-- The entries are the edges that wait, in order, numbered in the order of their pushes and
none past the given number. -/
structure Stamped (xs : List Entry) (serial : Nat) (waiting : List Edge) : Prop where
  edges : xs.map Entry.edge = waiting
  fom_eq : ∀ x ∈ xs, x.priority.fom = x.edge.fom
  ascending : xs.Pairwise fun x y => x.priority.serial < y.priority.serial
  le_serial : ∀ x ∈ xs, x.priority.serial ≤ serial

namespace Stamped

variable {xs : List Entry} {serial : Nat} {waiting : List Edge} {x : Entry}

theorem nil (serial : Nat) : Stamped [] serial [] :=
  ⟨rfl, by simp, List.Pairwise.nil, by simp⟩

/-- The next edge gets the next number. -/
theorem concat (h : Stamped xs serial waiting) (e : Edge) :
    Stamped (xs ++ [⟨⟨e.fom, serial + 1⟩, e⟩]) (serial + 1) (waiting ++ [e]) where
  edges := by simp [h.edges]
  fom_eq := by simpa [or_imp, forall_and] using h.fom_eq
  ascending := by
    refine List.pairwise_append.2 ⟨h.ascending, List.pairwise_singleton _ _, ?_⟩
    simpa using fun x hx => Nat.lt_succ_of_le (h.le_serial x hx)
  le_serial := by
    simpa [or_imp, forall_and] using fun x hx => Nat.le_succ_of_le (h.le_serial x hx)

theorem filter (h : Stamped xs serial waiting) (p : Edge → Bool) :
    Stamped (xs.filter fun x => p x.edge) serial (waiting.filter p) where
  edges := by rw [← h.edges, List.filter_map]; rfl
  fom_eq x hx := h.fom_eq x (List.mem_filter.1 hx).1
  ascending := h.ascending.filter _
  le_serial x hx := h.le_serial x (List.mem_filter.1 hx).1

/-- Before an entry of greatest priority there are worse ones only, and behind it no better
ones. -/
theorem exists_split (h : Stamped xs serial waiting) (hx : x ∈ xs)
    (hgreatest : ∀ y ∈ xs, y.priority ≤ x.priority) :
    ∃ before after, xs = before ++ x :: after ∧
      (∀ y ∈ before, y.edge.fom.rank < x.edge.fom.rank) ∧
      ∀ y ∈ after, y.edge.fom.rank ≤ x.edge.fom.rank := by
  obtain ⟨before, after, rfl⟩ := List.append_of_mem hx
  refine ⟨before, after, rfl, fun y hy => ?_, fun y hy => ?_⟩
  · have hmem : y ∈ before ++ x :: after := List.mem_append_left _ hy
    have hearlier : y.priority.serial < x.priority.serial :=
      (List.pairwise_append.1 h.ascending).2.2 y hy x List.mem_cons_self
    have hle := Priority.le_iff.1 (hgreatest y hmem)
    rw [h.fom_eq y hmem, h.fom_eq x hx] at hle
    omega
  · have hmem : y ∈ before ++ x :: after :=
      List.mem_append_right _ (List.mem_cons_of_mem x hy)
    have hle := Priority.le_iff.1 (hgreatest y hmem)
    rw [h.fom_eq y hmem, h.fom_eq x hx] at hle
    omega

/-- An entry of greatest priority has the first edge that waits. -/
theorem firstOf (h : Stamped xs serial waiting) (hx : x ∈ xs)
    (hgreatest : ∀ y ∈ xs, y.priority ≤ x.priority) : FirstOf waiting (some x.edge) := by
  obtain ⟨before, after, rfl, hworse, hnoBetter⟩ := h.exists_split hx hgreatest
  rw [← h.edges, List.map_append, List.map_cons]
  exact .edge (List.forall_mem_map.2 hworse) (List.forall_mem_map.2 hnoBetter)

/-- Without an entry of greatest priority, the others still are the edges that wait. -/
theorem erase (h : Stamped xs serial waiting) (hx : x ∈ xs)
    (hgreatest : ∀ y ∈ xs, y.priority ≤ x.priority) :
    Stamped (xs.erase x) serial (waiting.erase x.edge) where
  edges := by
    obtain ⟨before, after, rfl, hworse, -⟩ := h.exists_split hx hgreatest
    have hentry : x ∉ before := fun hmem => Int.lt_irrefl _ (hworse x hmem)
    have hedge : x.edge ∉ before.map Entry.edge := fun hmem => by
      obtain ⟨y, hy, heq⟩ := List.mem_map.1 hmem
      exact Int.lt_irrefl _ (heq ▸ hworse y hy)
    rw [← h.edges, List.map_append, List.erase_append_right _ hentry,
      List.erase_append_right _ hedge]
    simp
  fom_eq y hy := h.fom_eq y (List.mem_of_mem_erase hy)
  ascending := h.ascending.sublist List.erase_sublist
  le_serial y hy := h.le_serial y (List.mem_of_mem_erase hy)

end Stamped

/-! ## Stable queues over heaps -/

namespace HeapQueue

variable {H : Heap Entry Entry.priority} {q : HeapQueue H} {events : List QueueEvent}

/-- What a queue over a heap can do. -/
def ops (H : Heap Entry Entry.priority) : QueueOps (HeapQueue H) where
  push := push
  pop := pop
  reset := reset

/-- The heap has the edges that wait, numbered as they were pushed. -/
def HasHistory (q : HeapQueue H) (events : List QueueEvent) : Prop :=
  ∃ xs, Stamped xs q.serial (backlog .stable events) ∧ (H.entries q.heap).Perm xs

theorem hasHistory_new : HasHistory ({} : HeapQueue H) [] :=
  ⟨[], .nil 0, by rw [H.entries_empty]⟩

namespace HasHistory

theorem size_eq (h : q.HasHistory events) : q.size = (backlog .stable events).length := by
  obtain ⟨xs, hstamped, hperm⟩ := h
  rw [size, H.size_eq, hperm.length_eq, ← hstamped.edges, List.length_map]

theorem push (h : q.HasHistory events) (e : Edge) :
    (q.push e).2.HasHistory (events ++ [.pushed e]) := by
  obtain ⟨xs, hstamped, hperm⟩ := h
  refine ⟨_, by rw [backlog_concat]; exact hstamped.concat e, ?_⟩
  exact (H.entries_push _ _).trans ((hperm.cons _).trans (List.perm_append_singleton _ xs).symm)

/-- What is taken out of the heap has the first edge that waits, and the others stay. -/
theorem of_pop (h : q.HasHistory events) {x : Entry} {rest : H.Carrier}
    (hpop : H.pop q.heap = some (x, rest)) :
    FirstOf (backlog .stable events) (some x.edge) ∧
      HasHistory { q with heap := rest } (events ++ [.popped (some x.edge)]) := by
  obtain ⟨xs, hstamped, hperm⟩ := h
  have hrest := H.entries_of_pop hpop
  have hx : x ∈ xs := hperm.mem_iff.1 (hrest.mem_iff.2 List.mem_cons_self)
  have hgreatest : ∀ y ∈ xs, y.priority ≤ x.priority := fun y hy =>
    H.le_of_pop hpop y (hperm.mem_iff.2 hy)
  refine ⟨hstamped.firstOf hx hgreatest, xs.erase x, ?_, ?_⟩
  · rw [backlog_concat]
    exact hstamped.erase hx hgreatest
  · exact (List.perm_cons x).1 (hrest.symm.trans (hperm.trans (List.perm_cons_erase hx)))

/-- Only an empty heap has nothing to give out. -/
theorem backlog_of_pop_eq_none (h : q.HasHistory events) (hpop : H.pop q.heap = none) :
    backlog .stable events = [] := by
  rw [← List.length_eq_zero_iff, ← h.size_eq, size, H.size_eq, H.entries_of_pop_eq_none hpop]
  rfl

theorem pop (h : q.HasHistory events) :
    FirstOf (backlog .stable events) q.pop.1 ∧
      q.pop.2.HasHistory (events ++ [.popped q.pop.1]) := by
  cases hpop : H.pop q.heap with
  | none =>
      rw [show q.pop = (none, q) by rw [HeapQueue.pop, hpop]]
      refine ⟨?_, by simpa [HasHistory, outstanding] using h⟩
      rw [h.backlog_of_pop_eq_none hpop]
      exact .nothing
  | some taken =>
      obtain ⟨x, rest⟩ := taken
      rw [show q.pop = (some x.edge, { q with heap := rest }) by rw [HeapQueue.pop, hpop]]
      exact h.of_pop hpop

theorem reset (q : HeapQueue H) : q.reset.HasHistory [] :=
  ⟨[], .nil 0, by rw [HeapQueue.reset, H.entries_clear]⟩

end HasHistory

/-- A queue over a heap is a stable queue, whatever the heap. -/
theorem implements (H : Heap Entry Entry.priority) : (ops H).Implements .stable HasHistory where
  takes _ _ _ := rfl
  gives _ h := h.pop.1
  push _ h e := h.push e
  pop _ h := h.pop.2
  reset _ := HasHistory.reset _

end HeapQueue

end BestParse
