import BestParse.Proofs.BestFirst.Honest

/-!
# Edges offered in another order

The order in which edges are offered matters to a queue only among edges with equal figures of
merit.  Queues that no later operation tells apart are `Equivalent`: they hold the same edges in
the same order, and remember the same figure for each target.  They may differ in how many edges
they declined.

Two edges with different figures can change places (`Equivalent.push_push`).  For a stable queue
this is a fact about insertion.  A memo queue may take both edges, decline one or replace one by
the other; of two edges for one target the better one decides in either order
(`MemoQueue.push_push_better`), and edges for different targets do not meet.  So a queue
ends up the same after any arrangement of edges with different figures (`offered_perm`).
-/

namespace BestParse

/-! ## Insertion -/

namespace StableQueue

theorem insert_insert {e f : Edge} (hlt : e.fom.rank < f.fom.rank) : ∀ l : List Edge,
    insert e (insert f l) = insert f (insert e l)
  | [] => by
      have hnot : ¬ f.fom.rank ≤ e.fom.rank := Int.not_le.2 hlt
      simp [insert, Int.le_of_lt hlt, hnot]
  | x :: xs => by
      have hnot : ¬ f.fom.rank ≤ e.fom.rank := Int.not_le.2 hlt
      by_cases hf : f.fom.rank ≤ x.fom.rank
      · have he : e.fom.rank ≤ x.fom.rank := by omega
        simp [insert, hf, he, insert_insert hlt xs]
      · by_cases he : e.fom.rank ≤ x.fom.rank
        · simp [insert, hf, he, Int.le_of_lt hlt]
        · simp [insert, hf, he, Int.le_of_lt hlt, hnot]

/-- An edge goes to the front of edges that are all worse. -/
theorem insert_of_lt {e : Edge} {l : List Edge} (h : ∀ x ∈ l, x.fom.rank < e.fom.rank) :
    insert e l = e :: l := by
  cases l with
  | nil => rfl
  | cons x xs => exact if_neg (Int.not_le.2 (h x List.mem_cons_self))

theorem filter_insert {p : Edge → Bool} {e : Edge} : ∀ {l : List Edge},
    l.Pairwise (fun x y => y.fom.rank ≤ x.fom.rank) →
      (insert e l).filter p = if p e then insert e (l.filter p) else l.filter p
  | [], _ => by
      cases hpe : p e <;> simp [insert, hpe]
  | x :: xs, hsorted => by
      obtain ⟨hx, hxs⟩ := List.pairwise_cons.1 hsorted
      have ih := filter_insert (p := p) (e := e) hxs
      by_cases hle : e.fom.rank ≤ x.fom.rank
      · have hinsert : insert e (x :: xs) = x :: insert e xs := if_pos hle
        rw [hinsert, List.filter_cons, ih, List.filter_cons]
        cases hpe : p e <;> cases hpx : p x <;> simp [insert, hle]
      · have hinsert : insert e (x :: xs) = e :: x :: xs := if_neg hle
        have hworse : ∀ y ∈ (x :: xs).filter p, y.fom.rank < e.fom.rank := by
          intro y hy
          rcases List.mem_cons.1 (List.mem_filter.1 hy).1 with rfl | hrest
          · exact Int.not_le.1 hle
          · have := hx y hrest
            omega
        rw [hinsert, List.filter_cons, insert_of_lt hworse]

end StableQueue

/-! ## What a memo queue does with an offer -/

namespace MemoQueue

variable {q : MemoQueue} {e f : Edge}

theorem entries_push (q : MemoQueue) (e : Edge) :
    (q.push e).2.waiting.entries =
      if q.accepts e then
        StableQueue.insert e (q.waiting.entries.filter fun x => x.target ≠ e.target)
      else q.waiting.entries := by
  unfold push
  split <;> rfl

/-- An offer is remembered if it is accepted. -/
theorem best?_push_eq (q : MemoQueue) (e : Edge) (τ : Target) :
    (q.push e).2.best? τ = if q.accepts e ∧ τ = e.target then some e.fom else q.best? τ := by
  cases hacc : q.accepts e with
  | true =>
      rw [best?_push hacc]
      simp
  | false =>
      unfold push
      rw [hacc]
      simp [best?]

/-- Whether an edge is accepted depends on what is remembered for its target. -/
theorem accepts_congr {q q' : MemoQueue} (h : q.best? e.target = q'.best? e.target) :
    q.accepts e = q'.accepts e := by
  unfold accepts
  rw [h]

theorem accepts_push_of_ne (h : f.target ≠ e.target) : (q.push e).2.accepts f = q.accepts f := by
  refine accepts_congr ?_
  rw [best?_push_eq, if_neg fun hτ => h hτ.2]

/-- What beats an accepted edge for the same target is accepted. -/
theorem accepts_of_improves (htarget : f.target = e.target)
    (himproves : f.fom.improves e.fom = true) (hacc : q.accepts e = true) :
    q.accepts f = true := by
  unfold accepts at hacc ⊢
  rw [htarget]
  cases hbest : q.best? e.target with
  | none => rfl
  | some v =>
      rw [hbest] at hacc
      exact Score.improves_trans himproves hacc

/-- After an offer was accepted, the others for its target are compared with it. -/
theorem accepts_push_of_accepts (htarget : f.target = e.target) (hacc : q.accepts e = true) :
    (q.push e).2.accepts f = f.fom.improves e.fom := by
  unfold accepts
  rw [best?_push_eq, if_pos ⟨hacc, htarget⟩]

end MemoQueue

/-! ## Equivalent queues -/

namespace EdgeQueue

/-- The queues hold the same edges in the same order and remember the same figures. -/
structure Equivalent (q q' : EdgeQueue) : Prop where
  kind_eq : q.kind = q'.kind
  toList_eq : q.toList = q'.toList
  best_eq : ∀ τ, q.bestPushed? τ = q'.bestPushed? τ

namespace Equivalent

variable {q q' q'' : EdgeQueue}

theorem refl (q : EdgeQueue) : q.Equivalent q := ⟨rfl, rfl, fun _ => rfl⟩

theorem symm (h : q.Equivalent q') : q'.Equivalent q :=
  ⟨h.kind_eq.symm, h.toList_eq.symm, fun τ => (h.best_eq τ).symm⟩

theorem trans (h : q.Equivalent q') (h' : q'.Equivalent q'') : q.Equivalent q'' :=
  ⟨h.kind_eq.trans h'.kind_eq, h.toList_eq.trans h'.toList_eq, fun τ =>
    (h.best_eq τ).trans (h'.best_eq τ)⟩

theorem push (h : q.Equivalent q') (e : Edge) : (q.push e).2.Equivalent (q'.push e).2 := by
  obtain ⟨hkind, hlist, hbest⟩ := h
  cases q with
  | stable q =>
      cases q' with
      | stable q' => exact ⟨rfl, congrArg (StableQueue.insert e) hlist, fun _ => rfl⟩
      | memo q' => cases hkind
  | memo q =>
      cases q' with
      | stable q' => cases hkind
      | memo q' =>
          have hacc : q.accepts e = q'.accepts e := MemoQueue.accepts_congr (hbest e.target)
          have hentries : q.waiting.entries = q'.waiting.entries := hlist
          refine ⟨rfl, ?_, fun τ => ?_⟩
          · show (q.push e).2.waiting.entries = (q'.push e).2.waiting.entries
            rw [MemoQueue.entries_push, MemoQueue.entries_push, hacc, hentries]
          · have hτ : q.best? τ = q'.best? τ := hbest τ
            show (q.push e).2.best? τ = (q'.push e).2.best? τ
            rw [MemoQueue.best?_push_eq, MemoQueue.best?_push_eq, hacc, hτ]

theorem pop (h : q.Equivalent q') : q.pop.2.Equivalent q'.pop.2 := by
  have hlist : q.pop.2.toList = q'.pop.2.toList := by
    rw [toList_pop, toList_pop, h.toList_eq]
  cases q with
  | stable q =>
      cases q' with
      | stable q' => exact ⟨rfl, hlist, h.best_eq⟩
      | memo q' => cases h.kind_eq
  | memo q =>
      cases q' with
      | stable q' => cases h.kind_eq
      | memo q' => exact ⟨rfl, hlist, h.best_eq⟩

end Equivalent

end EdgeQueue

/-! ## Two offers to a memo queue -/

namespace MemoQueue

open EdgeQueue (Equivalent)

variable {q : MemoQueue} {e f : Edge}

theorem equivalent_of_declined (hdeclined : q.accepts e = false) :
    Equivalent (.memo (q.push e).2) (.memo q) := by
  refine ⟨rfl, ?_, fun τ => ?_⟩
  · show (q.push e).2.waiting.entries = q.waiting.entries
    simp [entries_push, hdeclined]
  · show (q.push e).2.best? τ = q.best? τ
    simp [best?_push_eq, hdeclined]

section

variable (hsorted : (EdgeQueue.memo q).Sorted)

include hsorted

/-- An accepted edge is the only one for its target. -/
theorem filter_push_self (hacc : q.accepts e = true) :
    ((q.push e).2.waiting.entries.filter fun x => x.target ≠ e.target) =
      q.waiting.entries.filter fun x => x.target ≠ e.target := by
  have hothers := List.Pairwise.filter (fun x => decide (x.target ≠ e.target))
    (show q.waiting.entries.Pairwise _ from hsorted)
  rw [entries_push, if_pos hacc, StableQueue.filter_insert hothers, List.filter_filter]
  simp

theorem filter_push_of_ne (hacc : q.accepts e = true) {τ : Target} (hne : e.target ≠ τ) :
    ((q.push e).2.waiting.entries.filter fun x => x.target ≠ τ) =
      StableQueue.insert e
        (q.waiting.entries.filter fun x => x.target ≠ τ ∧ x.target ≠ e.target) := by
  have hothers := List.Pairwise.filter (fun x => decide (x.target ≠ e.target))
    (show q.waiting.entries.Pairwise _ from hsorted)
  rw [entries_push, if_pos hacc, StableQueue.filter_insert hothers, List.filter_filter]
  simp [hne]

/-- Of two edges for one target, offered in either order, the better one decides. -/
theorem push_push_better (htarget : f.target = e.target)
    (himproves : f.fom.improves e.fom = true) :
    Equivalent (.memo ((q.push e).2.push f).2) (.memo ((q.push f).2.push e).2) := by
  have hafter : (q.push f).2.accepts e = false := by
    cases hf : q.accepts f with
    | true =>
        rw [accepts_push_of_accepts htarget.symm hf]
        exact Score.not_improves_of_improves himproves
    | false =>
        have hsame : (q.push f).2.accepts e = q.accepts e := by
          refine accepts_congr ?_
          rw [best?_push_eq, if_neg fun hτ => by cases hτ.1.symm.trans hf]
        rw [hsame]
        exact Bool.eq_false_iff.2 fun he => by
          cases (accepts_of_improves htarget himproves he).symm.trans hf
  refine Equivalent.trans ?_ (equivalent_of_declined hafter).symm
  cases he : q.accepts e with
  | false => exact (equivalent_of_declined he).push f
  | true =>
      have hf : q.accepts f = true := accepts_of_improves htarget himproves he
      have hf' : (q.push e).2.accepts f = true := by
        rw [accepts_push_of_accepts htarget he]
        exact himproves
      refine ⟨rfl, ?_, fun τ => ?_⟩
      · show ((q.push e).2.push f).2.waiting.entries = (q.push f).2.waiting.entries
        rw [entries_push, if_pos hf', entries_push q f, if_pos hf, htarget,
          filter_push_self hsorted he]
      · show ((q.push e).2.push f).2.best? τ = (q.push f).2.best? τ
        rw [best?_push hf', best?_push hf, best?_push he, htarget]
        split <;> rfl

/-- Edges for different targets do not meet. -/
theorem push_push_apart (htarget : f.target ≠ e.target) (hlt : e.fom.rank < f.fom.rank) :
    Equivalent (.memo ((q.push e).2.push f).2) (.memo ((q.push f).2.push e).2) := by
  have hf : (q.push e).2.accepts f = q.accepts f := accepts_push_of_ne htarget
  have he : (q.push f).2.accepts e = q.accepts e := accepts_push_of_ne htarget.symm
  cases hacc : q.accepts e with
  | false =>
      exact ((equivalent_of_declined hacc).push f).trans
        (equivalent_of_declined (he.trans hacc)).symm
  | true =>
      cases hacc' : q.accepts f with
      | false =>
          exact (equivalent_of_declined (hf.trans hacc')).trans
            ((equivalent_of_declined hacc').push e).symm
      | true =>
          refine ⟨rfl, ?_, fun τ => ?_⟩
          · show ((q.push e).2.push f).2.waiting.entries = ((q.push f).2.push e).2.waiting.entries
            rw [entries_push, if_pos (hf.trans hacc'), entries_push (q.push f).2 e,
              if_pos (he.trans hacc), filter_push_of_ne hsorted hacc htarget.symm,
              filter_push_of_ne hsorted hacc' htarget, StableQueue.insert_insert hlt]
            simp only [and_comm]
          · show ((q.push e).2.push f).2.best? τ = ((q.push f).2.push e).2.best? τ
            rw [best?_push (hf.trans hacc'), best?_push hacc, best?_push (he.trans hacc),
              best?_push hacc']
            by_cases hτ : τ = f.target
            · simp [hτ, htarget]
            · simp [hτ]

end

end MemoQueue

/-! ## Offers in either order -/

namespace EdgeQueue.Equivalent

variable {q q' : EdgeQueue} {e f : Edge}

/-- Two edges with different figures change places, the worse one first. -/
theorem push_push_of_lt (hsorted : q.Sorted) (he : e.fom ≠ .nan) (hf : f.fom ≠ .nan)
    (hlt : e.fom.rank < f.fom.rank) :
    ((q.push e).2.push f).2.Equivalent ((q.push f).2.push e).2 := by
  cases q with
  | stable q => exact ⟨rfl, (StableQueue.insert_insert hlt q.entries).symm, fun _ => rfl⟩
  | memo q =>
      by_cases htarget : f.target = e.target
      · exact MemoQueue.push_push_better hsorted htarget (Score.improves_iff.2 ⟨hf, he, hlt⟩)
      · exact MemoQueue.push_push_apart hsorted htarget hlt

theorem push_push (hsorted : q.Sorted) (he : e.fom ≠ .nan) (hf : f.fom ≠ .nan)
    (hne : e.fom.rank ≠ f.fom.rank) :
    ((q.push e).2.push f).2.Equivalent ((q.push f).2.push e).2 := by
  rcases Int.lt_or_gt_of_ne hne with hlt | hgt
  · exact push_push_of_lt hsorted he hf hlt
  · exact (push_push_of_lt hsorted hf he hgt).symm

end EdgeQueue.Equivalent

namespace BestFirst

variable {t : Task} {c : Chart} {q : EdgeQueue}

theorem equivalent_offered : ∀ (es : List Edge) {q q' : EdgeQueue}, q.Equivalent q' →
    (offered t c q es).Equivalent (offered t c q' es)
  | [], _, _, h => h
  | _ :: es, _, _, h => equivalent_offered es (h.push _)

/-- A queue ends up the same after any arrangement of edges that are rated differently. -/
theorem offered_perm {es es' : List Edge} (hperm : es.Perm es')
    (hnumber : ∀ e ∈ es, t.merit.score e c ≠ .nan)
    (hdifferent : es.Pairwise fun e f => (t.merit.score e c).rank ≠ (t.merit.score f c).rank)
    (hsorted : q.Sorted) : (offered t c q es).Equivalent (offered t c q es') := by
  induction hperm generalizing q with
  | nil => exact .refl q
  | cons e _ ih =>
      exact ih (fun f hf => hnumber f (List.mem_cons_of_mem e hf)) hdifferent.tail (hsorted.push _)
  | swap e f es =>
      obtain ⟨hhead, -⟩ := List.pairwise_cons.1 hdifferent
      refine equivalent_offered es (EdgeQueue.Equivalent.push_push hsorted ?_ ?_ ?_)
      · exact hnumber f List.mem_cons_self
      · exact hnumber e (List.mem_cons_of_mem f List.mem_cons_self)
      · exact hhead e List.mem_cons_self
  | trans hleft hright ihleft ihright =>
      refine (ihleft hnumber hdifferent hsorted).trans (ihright ?_ ?_ hsorted)
      · exact fun e he => hnumber e (hleft.mem_iff.2 he)
      · exact hdifferent.perm hleft fun h => Ne.symm h

end BestFirst
end BestParse
