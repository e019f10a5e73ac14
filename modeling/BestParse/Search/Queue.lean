import BestParse.Chart.Edge
import BestParse.Grammar.Index

/-!
# Edge queues

A queue is kept as the list of its edges in the order in which they will be
taken: by figure of merit, the greatest first, and among equals the earliest put
in first.  Figures are compared by rank, so what is not a number comes first of
all and the two zeros are equals.

A stable queue keeps every edge.  A memo queue keeps at most one edge for each
target: it takes an edge only when its figure is better than the best it ever
took for the target, and the edge then replaces the one still waiting.
-/

namespace BestParse

/-! ## Stable queues -/

/-- A queue that keeps every edge. -/
structure StableQueue where
  /-- The edges, in the order in which they will be taken. -/
  entries : List Edge := []

namespace StableQueue

/-- Put an edge behind all edges with at least its figure of merit. -/
def insert (e : Edge) : List Edge → List Edge
  | [] => [e]
  | x :: xs => if e.fom.rank ≤ x.fom.rank then x :: insert e xs else e :: x :: xs

theorem insert_perm (e : Edge) (l : List Edge) : (insert e l).Perm (e :: l) := by
  induction l with
  | nil => exact List.Perm.refl _
  | cons x xs ih =>
    unfold insert
    split
    · exact (ih.cons x).trans (List.Perm.swap e x xs)
    · exact List.Perm.refl _

@[simp] theorem mem_insert {x e : Edge} {l : List Edge} : x ∈ insert e l ↔ x = e ∨ x ∈ l := by
  rw [(insert_perm e l).mem_iff, List.mem_cons]

@[simp] theorem length_insert (e : Edge) (l : List Edge) : (insert e l).length = l.length + 1 :=
  (insert_perm e l).length_eq

/-- Insertion keeps the order by figure of merit. -/
theorem pairwise_insert (e : Edge) {l : List Edge}
    (h : l.Pairwise fun x y => y.fom.rank ≤ x.fom.rank) :
    (insert e l).Pairwise fun x y => y.fom.rank ≤ x.fom.rank := by
  induction l with
  | nil => simp [insert]
  | cons x xs ih =>
    obtain ⟨hx, hxs⟩ := List.pairwise_cons.1 h
    unfold insert
    split
    · next hle =>
      refine List.pairwise_cons.2 ⟨?_, ih hxs⟩
      intro y hy
      rcases mem_insert.1 hy with rfl | hy
      · exact hle
      · exact hx y hy
    · next hlt =>
      refine List.pairwise_cons.2 ⟨?_, h⟩
      intro y hy
      rcases List.mem_cons.1 hy with rfl | hy
      · omega
      · exact Int.le_trans (hx y hy) (by omega)

/-- Put an edge into the queue. -/
def push (q : StableQueue) (e : Edge) : StableQueue := ⟨insert e q.entries⟩

/-- Take the first edge out of the queue. -/
def pop (q : StableQueue) : Option Edge × StableQueue :=
  match q.entries with
  | [] => (none, q)
  | e :: rest => (some e, ⟨rest⟩)

/-- How many edges wait. -/
def size (q : StableQueue) : Nat := q.entries.length

end StableQueue

/-! ## Memo queues -/

/-- A target as a key: its span, and its nonterminal and layer. -/
def Target.key (t : Target) : (Nat × Nat) × (Nat × Nat) :=
  ((t.slot.start, t.slot.stop), (t.slot.symbol, t.layer))

/-- A map keyed by targets. -/
abbrev TargetMap (β : Type) :=
  Std.TreeMap ((Nat × Nat) × (Nat × Nat)) β
    (@compare ((Nat × Nat) × (Nat × Nat)) (@lexOrd _ _ lexOrd lexOrd))

/-- A queue that keeps at most one edge for each target. -/
structure MemoQueue where
  /-- The edges that wait. -/
  waiting : StableQueue := {}
  /-- The best figure of merit ever taken for each target. -/
  bestPushed : TargetMap Score := ∅
  /-- How many edges were declined. -/
  suppressed : Nat := 0

namespace MemoQueue

/-- The best figure of merit ever taken for a target. -/
def best? (q : MemoQueue) (t : Target) : Option Score := q.bestPushed[t.key]?

/-- Whether an edge is better than all before it that had its target. -/
def accepts (q : MemoQueue) (e : Edge) : Bool :=
  match q.best? e.target with
  | none => true
  | some best => e.fom.improves best

/-- Offer an edge; tells whether it was taken. -/
def push (q : MemoQueue) (e : Edge) : Bool × MemoQueue :=
  if q.accepts e then
    let others : StableQueue := ⟨q.waiting.entries.filter fun x => x.target ≠ e.target⟩
    (true,
      { q with
        waiting := others.push e
        bestPushed := q.bestPushed.insert e.target.key e.fom })
  else (false, { q with suppressed := q.suppressed + 1 })

/-- Take the first edge out of the queue. -/
def pop (q : MemoQueue) : Option Edge × MemoQueue :=
  let (e, waiting) := q.waiting.pop
  (e, { q with waiting })

end MemoQueue

/-! ## Queues of either kind -/

/-- Whether a queue declines edges that cannot matter. -/
inductive QueueKind where
  | stable
  | memo
deriving DecidableEq

/-- A queue of candidate edges. -/
inductive EdgeQueue where
  | stable (q : StableQueue)
  | memo (q : MemoQueue)

namespace EdgeQueue

/-- An empty queue of a kind. -/
def empty : QueueKind → EdgeQueue
  | .stable => .stable {}
  | .memo => .memo {}

/-- The kind of a queue. -/
def kind : EdgeQueue → QueueKind
  | .stable _ => .stable
  | .memo _ => .memo

/-- The empty queue of the same kind. -/
def reset (q : EdgeQueue) : EdgeQueue := empty q.kind

/-- Offer an edge; tells whether it was taken. -/
def push : EdgeQueue → Edge → Bool × EdgeQueue
  | .stable q, e => (true, .stable (q.push e))
  | .memo q, e =>
    let (taken, q) := q.push e
    (taken, .memo q)

/-- Take the first edge out of the queue. -/
def pop : EdgeQueue → Option Edge × EdgeQueue
  | .stable q =>
    let (e, q) := q.pop
    (e, .stable q)
  | .memo q =>
    let (e, q) := q.pop
    (e, .memo q)

/-- The edges that wait, in the order in which they will be taken. -/
def toList : EdgeQueue → List Edge
  | .stable q => q.entries
  | .memo q => q.waiting.entries

/-- How many edges wait. -/
def size (q : EdgeQueue) : Nat := q.toList.length

/-- How many edges a memo queue declined. -/
def suppressed? : EdgeQueue → Option Nat
  | .stable _ => none
  | .memo q => some q.suppressed

/-- The best figure of merit a memo queue ever took for a target. -/
def bestPushed? : EdgeQueue → Target → Option Score
  | .stable _, _ => none
  | .memo q, t => q.best? t

end EdgeQueue

end BestParse
