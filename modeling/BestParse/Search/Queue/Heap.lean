import Mathlib.Data.List.Sort
import BestParse.Search.Queue

/-!
# Queues over heaps

A queue need not keep its edges in order.  It can keep them in a *heap*, a bag that gives out a
greatest entry, and give every edge a priority: its figure of merit, and the number of its push
to tell equal figures apart.  The earlier push is the greater one, so no two entries are equals
and the heap has no choice.

A *keyed heap* holds items with priorities, each item at most once.  Pushing an item that is in
gives it the new priority.

Heaps are parameters here.  What is asked of them stands in the structures beside their
operations, and nothing is said of the order in which they keep their entries.  Sorted lists
are heaps of either kind.
-/

namespace BestParse

/-! ## Priorities -/

/-- The place of an edge among those that wait. -/
structure Priority where
  /-- The figure of merit. -/
  fom : Score
  /-- The number of the push. -/
  serial : Nat
deriving DecidableEq

namespace Priority

/-- By figure of merit, and among equals the earlier push is the greater one. -/
instance : LE Priority where
  le p q := p.fom.rank < q.fom.rank ∨ p.fom.rank = q.fom.rank ∧ q.serial ≤ p.serial

theorem le_iff {p q : Priority} :
    p ≤ q ↔ p.fom.rank < q.fom.rank ∨ p.fom.rank = q.fom.rank ∧ q.serial ≤ p.serial :=
  Iff.rfl

instance : DecidableLE Priority := fun p q =>
  inferInstanceAs (Decidable (p.fom.rank < q.fom.rank ∨ _))

theorem le_refl (p : Priority) : p ≤ p := Or.inr ⟨rfl, Nat.le_refl _⟩

theorem le_total (p q : Priority) : p ≤ q ∨ q ≤ p := by
  simp only [le_iff]
  omega

theorem le_trans {p q r : Priority} (hpq : p ≤ q) (hqr : q ≤ r) : p ≤ r := by
  simp only [le_iff] at *
  omega

end Priority

/-! ## Heaps -/

/-- A bag of entries that gives out a greatest one. -/
structure Heap (α : Type) (key : α → Priority) where
  /-- The states of the heap. -/
  Carrier : Type
  empty : Carrier
  clear : Carrier → Carrier
  push : Carrier → α → Carrier
  /-- Take a greatest entry out, if there is any. -/
  pop : Carrier → Option (α × Carrier)
  size : Carrier → Nat
  /-- The entries, in no particular order. -/
  entries : Carrier → List α
  entries_empty : entries empty = []
  entries_clear : ∀ h, entries (clear h) = []
  entries_push : ∀ h x, (entries (push h x)).Perm (x :: entries h)
  entries_of_pop_eq_none : ∀ {h}, pop h = none → entries h = []
  entries_of_pop : ∀ {h x rest}, pop h = some (x, rest) → (entries h).Perm (x :: entries rest)
  le_of_pop : ∀ {h x rest}, pop h = some (x, rest) → ∀ y ∈ entries h, key y ≤ key x
  size_eq : ∀ h, size h = (entries h).length

/-- A bag of items with priorities that gives out an item of greatest priority. -/
structure KeyedHeap (ι : Type) where
  /-- The states of the heap. -/
  Carrier : Type
  empty : Carrier
  clear : Carrier → Carrier
  /-- Put an item in, or give an item that is in another priority. -/
  push : Carrier → ι → Priority → Carrier
  /-- Take an item of greatest priority out, if there is any. -/
  pop : Carrier → Option ((ι × Priority) × Carrier)
  size : Carrier → Nat
  /-- The items with their priorities, in no particular order. -/
  entries : Carrier → List (ι × Priority)
  nodup_items : ∀ h, ((entries h).map Prod.fst).Nodup
  entries_empty : entries empty = []
  entries_clear : ∀ h, entries (clear h) = []
  mem_push : ∀ {h i p x}, x ∈ entries (push h i p) ↔ x = (i, p) ∨ x ∈ entries h ∧ x.1 ≠ i
  entries_of_pop_eq_none : ∀ {h}, pop h = none → entries h = []
  mem_of_pop : ∀ {h x rest}, pop h = some (x, rest) → x ∈ entries h
  le_of_pop : ∀ {h x rest}, pop h = some (x, rest) → ∀ y ∈ entries h, y.2 ≤ x.2
  mem_rest : ∀ {h x rest}, pop h = some (x, rest) →
    ∀ y, y ∈ entries rest ↔ y ∈ entries h ∧ y.1 ≠ x.1
  size_eq : ∀ h, size h = (entries h).length

/-! ## Stable queues over heaps -/

/-- An edge with its priority. -/
structure Entry where
  priority : Priority
  edge : Edge
deriving DecidableEq

/-- A queue that keeps every edge, in a heap. -/
structure HeapQueue (H : Heap Entry Entry.priority) where
  heap : H.Carrier := H.empty
  /-- How many edges were put in since the last reset. -/
  serial : Nat := 0

namespace HeapQueue

variable {H : Heap Entry Entry.priority}

/-- Forget all edges. -/
def reset (q : HeapQueue H) : HeapQueue H := ⟨H.clear q.heap, 0⟩

/-- Put an edge into the queue; every edge is taken. -/
def push (q : HeapQueue H) (e : Edge) : Bool × HeapQueue H :=
  let serial := q.serial + 1
  (true, ⟨H.push q.heap ⟨⟨e.fom, serial⟩, e⟩, serial⟩)

/-- Take the first edge out of the queue. -/
def pop (q : HeapQueue H) : Option Edge × HeapQueue H :=
  match H.pop q.heap with
  | none => (none, q)
  | some (x, heap) => (some x.edge, { q with heap })

/-- How many edges wait. -/
def size (q : HeapQueue H) : Nat := H.size q.heap

end HeapQueue

/-! ## Memo queues over keyed heaps -/

/-- A queue that keeps at most one edge for each target, in three tables: the heap has the
priorities of the targets, another table their edges, and a third one what they were ever
pushed with.  Taking an edge out leaves the third table. -/
structure TableQueue (H : KeyedHeap Target) where
  heap : H.Carrier := H.empty
  /-- The edge that waits for each target. -/
  pending : TargetMap Edge := ∅
  /-- The best figure of merit ever taken for each target. -/
  bestPushed : TargetMap Score := ∅
  /-- How many edges were taken in since the last reset. -/
  serial : Nat := 0
  /-- How many edges were declined since the last reset. -/
  suppressed : Nat := 0

namespace TableQueue

variable {H : KeyedHeap Target}

/-- Forget all edges, and all that is remembered of them. -/
def reset (q : TableQueue H) : TableQueue H := ⟨H.clear q.heap, ∅, ∅, 0, 0⟩

/-- The edge that waits for a target. -/
def pending? (q : TableQueue H) (τ : Target) : Option Edge := q.pending[τ.key]?

/-- The best figure of merit ever taken for a target. -/
def best? (q : TableQueue H) (τ : Target) : Option Score := q.bestPushed[τ.key]?

/-- Whether an edge is better than all before it that had its target. -/
def accepts (q : TableQueue H) (e : Edge) : Bool :=
  match q.best? e.target with
  | none => true
  | some best => e.fom.improves best

/-- The queue with an edge that it takes. -/
def take (q : TableQueue H) (e : Edge) : TableQueue H :=
  let serial := q.serial + 1
  { q with
    heap := H.push q.heap e.target ⟨e.fom, serial⟩
    pending := q.pending.insert e.target.key e
    bestPushed := q.bestPushed.insert e.target.key e.fom
    serial }

/-- Offer an edge; tells whether it was taken. -/
def push (q : TableQueue H) (e : Edge) : Bool × TableQueue H :=
  if q.accepts e then (true, q.take e) else (false, { q with suppressed := q.suppressed + 1 })

/-- Take the target with the greatest priority out, and with it the edge that waits for it. -/
def pop (q : TableQueue H) : Option Edge × TableQueue H :=
  match H.pop q.heap with
  | none => (none, q)
  | some ((τ, _), heap) =>
    (q.pending? τ, { q with heap, pending := q.pending.erase τ.key })

/-- How many edges wait. -/
def size (q : TableQueue H) : Nat := H.size q.heap

end TableQueue

/-! ## Sorted lists as heaps -/

section

variable {α : Type} (key : α → Priority)

/-- The greatest entry first. -/
abbrev Descends (x y : α) : Prop := key y ≤ key x

instance : Std.Total (Descends key) := ⟨fun x y => Priority.le_total (key y) (key x)⟩

instance : IsTrans α (Descends key) := ⟨fun _ _ _ hxy hyz => Priority.le_trans hyz hxy⟩

/-- Lists with the greatest entry first are a heap. -/
def Heap.sorted : Heap α key where
  Carrier := { l : List α // l.Pairwise (Descends key) }
  empty := ⟨[], List.Pairwise.nil⟩
  clear _ := ⟨[], List.Pairwise.nil⟩
  push l x := ⟨l.1.orderedInsert (Descends key) x, l.2.orderedInsert x _⟩
  pop
    | ⟨[], _⟩ => none
    | ⟨x :: l, h⟩ => some (x, ⟨l, h.tail⟩)
  size l := l.1.length
  entries l := l.1
  entries_empty := rfl
  entries_clear _ := rfl
  entries_push l x := List.perm_orderedInsert _ x l.1
  entries_of_pop_eq_none := by
    rintro ⟨_ | ⟨x, l⟩, h⟩ hpop
    · rfl
    · cases hpop
  entries_of_pop := by
    rintro ⟨_ | ⟨x, l⟩, h⟩ y rest hpop
    · cases hpop
    · cases hpop
      exact List.Perm.refl _
  le_of_pop := by
    rintro ⟨_ | ⟨x, l⟩, h⟩ y rest hpop
    · cases hpop
    · cases hpop
      exact List.forall_mem_cons.2 ⟨Priority.le_refl _, (List.pairwise_cons.1 h).1⟩
  size_eq _ := rfl

end

/-- Lists of items with the greatest priority first, and no item twice, are a keyed heap. -/
def KeyedHeap.sorted (ι : Type) [DecidableEq ι] : KeyedHeap ι where
  Carrier := { l : List (ι × Priority) //
    l.Pairwise (Descends Prod.snd) ∧ (l.map Prod.fst).Nodup }
  empty := ⟨[], List.Pairwise.nil, List.nodup_nil⟩
  clear _ := ⟨[], List.Pairwise.nil, List.nodup_nil⟩
  push l i p :=
    ⟨(l.1.filter fun x => x.1 ≠ i).orderedInsert (Descends Prod.snd) (i, p),
      (l.2.1.filter _).orderedInsert _ _, by
        have hothers : ((l.1.filter fun x => x.1 ≠ i).map Prod.fst).Nodup :=
          l.2.2.sublist (List.filter_sublist.map _)
        refine ((List.perm_orderedInsert _ _ _).map Prod.fst).nodup_iff.2 ?_
        exact List.nodup_cons.2 ⟨by simp, hothers⟩⟩
  pop
    | ⟨[], _⟩ => none
    | ⟨x :: l, h⟩ => some (x, ⟨l, h.1.tail, h.2.tail⟩)
  size l := l.1.length
  entries l := l.1
  nodup_items l := l.2.2
  entries_empty := rfl
  entries_clear _ := rfl
  mem_push := by simp
  entries_of_pop_eq_none := by
    rintro ⟨_ | ⟨x, l⟩, h⟩ hpop
    · rfl
    · cases hpop
  mem_of_pop := by
    rintro ⟨_ | ⟨x, l⟩, h⟩ y rest hpop
    · cases hpop
    · cases hpop
      exact List.mem_cons_self
  le_of_pop := by
    rintro ⟨_ | ⟨x, l⟩, h⟩ y rest hpop
    · cases hpop
    · cases hpop
      exact List.forall_mem_cons.2 ⟨Priority.le_refl _, (List.pairwise_cons.1 h.1).1⟩
  mem_rest := by
    rintro ⟨_ | ⟨x, l⟩, h⟩ y rest hpop z
    · cases hpop
    · cases hpop
      have hother : z ∈ l → z.1 ≠ x.1 := fun hz heq =>
        (List.nodup_cons.1 h.2).1 (heq ▸ List.mem_map_of_mem hz)
      constructor
      · exact fun hz => ⟨List.mem_cons_of_mem x hz, hother hz⟩
      · rintro ⟨hz, hne⟩
        exact (List.mem_cons.1 hz).resolve_left fun heq => hne (heq ▸ rfl)
  size_eq _ := rfl

end BestParse
