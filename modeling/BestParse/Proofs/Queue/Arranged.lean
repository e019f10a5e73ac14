import BestParse.Proofs.BestFirst.Arrangement
import BestParse.Proofs.Queue.History

/-!
# Queues that keep their edges in order

The queues of the searches are lists in the order in which the edges will be taken.  Such a list
is what remains of the edges that wait when the first one is given out again and again
(`Arranged`).  Insertion puts a newcomer where it will be given out (`Arranged.insert`), and what
is left out of the edges is left out of the list (`Arranged.filter`).

A queue has its history when its list is the arranged backlog; a memo queue also remembers the
last figure taken for each target, and how many edges it declined (`HasHistory`).  With this the
queues implement their kinds (`implements`).
-/

namespace BestParse

/-! ## Arranged edges -/

/-- The second list has the edges of the first in the order in which they are given out. -/
inductive Arranged : List Edge → List Edge → Prop where
  | nil : Arranged [] []
  /-- One edge is given out, and then the others. -/
  | select {before after rest : List Edge} {e : Edge}
      (worse : ∀ f ∈ before, f.fom.rank < e.fom.rank)
      (noBetter : ∀ f ∈ after, f.fom.rank ≤ e.fom.rank)
      (others : Arranged (before ++ after) rest) : Arranged (before ++ e :: after) (e :: rest)

namespace Arranged

variable {waiting rest : List Edge} {e : Edge}

theorem perm (h : Arranged waiting rest) : rest.Perm waiting := by
  induction h with
  | nil => exact List.Perm.refl _
  | select worse noBetter others ih => exact (ih.cons _).trans List.perm_middle.symm

/-- The head of the list is the first edge that waits. -/
theorem firstOf (h : Arranged waiting rest) : FirstOf waiting rest.head? := by
  cases h with
  | nil => exact .nothing
  | select worse noBetter others => exact .edge worse noBetter

theorem tail (h : Arranged waiting (e :: rest)) : Arranged (waiting.erase e) rest := by
  cases h with
  | @select before after rest e worse noBetter others =>
      have hnot : e ∉ before := fun hmem => Int.lt_irrefl _ (worse e hmem)
      rwa [List.erase_append_right _ hnot, List.erase_cons_head]

/-- A newcomer goes behind all that are not worse. -/
theorem insert (h : Arranged waiting rest) (e : Edge) :
    Arranged (waiting ++ [e]) (StableQueue.insert e rest) := by
  induction h with
  | nil => exact @select [] [] [] e (by simp) (by simp) .nil
  | @select before after rest f worse noBetter others ih =>
      have hall := others.select worse noBetter
      by_cases hle : e.fom.rank ≤ f.fom.rank
      · rw [show StableQueue.insert e (f :: rest) = f :: StableQueue.insert e rest from if_pos hle,
          List.append_assoc, List.cons_append]
        refine .select worse ?_ (by rwa [List.append_assoc] at ih)
        simpa [or_imp, forall_and] using ⟨noBetter, hle⟩
      · rw [show StableQueue.insert e (f :: rest) = e :: f :: rest from if_neg hle]
        refine .select (fun x hx => ?_) (by simp) (by rwa [List.append_nil])
        have hfirst := hall.firstOf.rank_le hx
        omega

theorem filter (h : Arranged waiting rest) (p : Edge → Bool) :
    Arranged (waiting.filter p) (rest.filter p) := by
  induction h with
  | nil => exact .nil
  | @select before after rest f worse noBetter others ih =>
      rw [List.filter_append] at ih ⊢
      cases hp : p f with
      | false => simpa [hp] using ih
      | true =>
          rw [List.filter_cons_of_pos hp, List.filter_cons_of_pos hp]
          exact .select (fun x hx => worse x (List.mem_filter.1 hx).1)
            (fun x hx => noBetter x (List.mem_filter.1 hx).1) ih

end Arranged

/-! ## Queues with a history -/

namespace EdgeQueue

/-- What a queue can do. -/
def ops : QueueOps EdgeQueue where
  push := push
  pop := pop
  reset := reset

/-- The events of a queue of a kind can be told from its state. -/
inductive HasHistory : QueueKind → EdgeQueue → List QueueEvent → Prop where
  | stable {q : StableQueue} {events : List QueueEvent}
      (arranged : Arranged (backlog .stable events) q.entries) :
      HasHistory .stable (.stable q) events
  | memo {q : MemoQueue} {events : List QueueEvent}
      (arranged : Arranged (backlog .memo events) q.waiting.entries)
      (best : ∀ τ, q.best? τ = (lastFor events τ).map Edge.fom)
      (suppressed : q.suppressed = (declined events).length) : HasHistory .memo (.memo q) events

variable {kind : QueueKind} {q : EdgeQueue} {events : List QueueEvent}

theorem hasHistory_empty (kind : QueueKind) : HasHistory kind (empty kind) [] := by
  cases kind with
  | stable => exact .stable .nil
  | memo => exact .memo .nil (fun τ => by simp [MemoQueue.best?]) rfl

namespace HasHistory

theorem kind_eq (h : HasHistory kind q events) : q.kind = kind := by
  cases h <;> rfl

theorem arranged_toList (h : HasHistory kind q events) :
    Arranged (backlog kind events) q.toList := by
  cases h with
  | stable arranged => exact arranged
  | memo arranged best suppressed => exact arranged

theorem size_eq (h : HasHistory kind q events) : q.size = (backlog kind events).length :=
  h.arranged_toList.perm.length_eq

theorem suppressed?_eq (h : HasHistory .memo q events) :
    q.suppressed? = some (declined events).length := by
  cases h with
  | memo arranged best suppressed => exact congrArg some suppressed

theorem bestPushed?_eq (h : HasHistory .memo q events) (τ : Target) :
    q.bestPushed? τ = (lastFor events τ).map Edge.fom := by
  cases h with
  | memo arranged best suppressed => exact best τ

theorem accepts_eq {q : MemoQueue} (h : HasHistory .memo (.memo q) events) (e : Edge) :
    q.accepts e = takesIn .memo events e := by
  cases h with
  | memo arranged best suppressed =>
      rw [MemoQueue.accepts, best, takesIn]
      cases lastFor events e.target <;> rfl

theorem push_fst (h : HasHistory kind q events) (e : Edge) :
    (q.push e).1 = takesIn kind events e := by
  cases h with
  | stable arranged => rfl
  | @memo q events arranged best suppressed =>
      rw [← (HasHistory.memo arranged best suppressed).accepts_eq]
      show (q.push e).1 = q.accepts e
      rw [MemoQueue.push]
      split
      · next hacc => exact hacc.symm
      · next hacc => exact (Bool.eq_false_iff.2 hacc).symm

theorem push (h : HasHistory kind q events) (e : Edge) :
    HasHistory kind (q.push e).2 (events ++ [offerEvent (takesIn kind events e) e]) := by
  cases h with
  | stable arranged =>
      have hinsert := arranged.insert e
      exact .stable (by rwa [backlog_concat])
  | @memo q events arranged best suppressed =>
      have hacc := (HasHistory.memo arranged best suppressed).accepts_eq e
      rw [← hacc]
      refine .memo (q := (q.push e).2) ?_ (fun τ => ?_) ?_
      · rw [MemoQueue.entries_push]
        cases q.accepts e with
        | true => simpa [offerEvent, outstanding] using (arranged.filter _).insert e
        | false => simpa [offerEvent, outstanding] using arranged
      · rw [MemoQueue.best?_push_eq, best]
        cases q.accepts e with
        | true =>
            by_cases hτ : τ = e.target
            · simp [offerEvent, hτ]
            · simp [offerEvent, hτ, Ne.symm hτ]
        | false => simp [offerEvent]
      · rw [MemoQueue.push]
        cases hacc : q.accepts e with
        | true => simpa [offerEvent] using suppressed
        | false => simp [offerEvent, suppressed]

theorem pop_firstOf (h : HasHistory kind q events) : FirstOf (backlog kind events) q.pop.1 := by
  rw [fst_pop]
  exact h.arranged_toList.firstOf

theorem arranged_pop (h : HasHistory kind q events) :
    Arranged (backlog kind (events ++ [.popped q.pop.1])) q.pop.2.toList := by
  have harranged := h.arranged_toList
  rw [fst_pop, toList_pop, backlog_concat]
  cases hlist : q.toList with
  | nil => simpa [hlist, outstanding] using harranged
  | cons e rest => exact (hlist ▸ harranged).tail

theorem pop (h : HasHistory kind q events) :
    HasHistory kind q.pop.2 (events ++ [.popped q.pop.1]) := by
  have harranged := h.arranged_pop
  cases h with
  | stable => exact .stable harranged
  | memo arranged best suppressed =>
      exact .memo harranged (fun τ => (best τ).trans (by rw [lastFor_concat_popped]))
        (suppressed.trans (by rw [declined_concat_popped]))

theorem reset (h : HasHistory kind q events) : HasHistory kind q.reset [] := by
  rw [EdgeQueue.reset, h.kind_eq]
  exact hasHistory_empty kind

end HasHistory

/-- The queues of the searches do what queues of their kinds do. -/
theorem implements (kind : QueueKind) : ops.Implements kind (HasHistory kind) where
  takes _ h e := h.push_fst e
  gives _ h := h.pop_firstOf
  push _ h e := h.push e
  pop _ h := h.pop
  reset h := h.reset

end EdgeQueue

end BestParse
