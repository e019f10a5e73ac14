import BestParse.Proofs.BestFirst.Honest
import BestParse.Proofs.SpanFirst.Course

/-!
# Keys that are up to date

What a key says depends on how edges are rated; `KeyRule` is what the search needs of it.
When edges are rated by their scores, a key computed anew is the greatest score of an
improving edge over its span, and a span that gets no key has no improving edge (`Tells`,
`keyRule_tells`).

A key stays right as long as the improving edges over its span stay the same.  They are made
from the scores of the span and of the spans inside it.  So when a chart has changed over one
span only (`Within`), they are as before over every span that is neither that span nor one of
its parents, and come in the same order (`Within.improvingEdges_eq`).
-/

namespace BestParse
namespace SpanFirst

open Chart
open BestFirst (RatesInside)

variable {t : Task} {chain : Nat} {c c' : Chart} {e : Edge}

/-! ## What a key says -/

/-- The key of a span is the greatest score of an improving edge over it. -/
def Tells (t : Task) (c : Chart) (span : Nat × Nat) : Option Score → Prop
  | none => t.limits.isOpen span.1 span.2 = true → ∀ e, e ∉ improvingEdges t c span.1 span.2
  | some fom =>
    (∃ e ∈ improvingEdges t c span.1 span.2, e.inside = fom) ∧
      ∀ e ∈ improvingEdges t c span.1 span.2, e.inside.rank ≤ fom.rank

/-- The best figure of some edges is a number.  It is one of theirs, unless it is the one begun
with, and no number among them is greater. -/
theorem foldl_best (figure : Edge → Score) (es : List Edge) {best : Score} (hbest : best ≠ .nan) :
    let result := es.foldl (fun best e => if (figure e).improves best then figure e else best) best
    result ≠ .nan ∧ (result = best ∨ ∃ e ∈ es, figure e = result) ∧ best.rank ≤ result.rank ∧
      ∀ e ∈ es, figure e ≠ .nan → (figure e).rank ≤ result.rank := by
  induction es generalizing best with
  | nil => exact ⟨hbest, Or.inl rfl, Int.le_refl _, List.forall_mem_nil _⟩
  | cons f es ih =>
      rw [List.foldl_cons]
      split
      · next himproves =>
        obtain ⟨hnum, -, hlt⟩ := Score.improves_iff.1 himproves
        obtain ⟨hresult, hone, hle, hall⟩ := ih hnum
        refine ⟨hresult, Or.inr ?_, Int.le_trans (Int.le_of_lt hlt) hle,
          List.forall_mem_cons.2 ⟨fun _ => hle, hall⟩⟩
        rcases hone with heq | ⟨e, he, heq⟩
        · exact ⟨f, List.mem_cons_self, heq.symm⟩
        · exact ⟨e, List.mem_cons_of_mem f he, heq⟩
      · next hnot =>
        obtain ⟨hresult, hone, hle, hall⟩ := ih hbest
        refine ⟨hresult, hone.imp_right ?_, hle, List.forall_mem_cons.2 ⟨fun hnum => ?_, hall⟩⟩
        · rintro ⟨e, he, heq⟩
          exact ⟨e, List.mem_cons_of_mem f he, heq⟩
        · exact Int.le_trans (Score.rank_le_of_not_improves hnum hbest hnot) hle

/-- Over an open span, the key is the best figure of an improving edge. -/
theorem bestFom_spec (c : Chart) {span : Nat × Nat}
    (hopen : t.limits.isOpen span.1 span.2 = true) :
    bestFom t c span.1 span.2 ≠ .nan ∧ (bestFom t c span.1 span.2 = .unreachable ∨
      ∃ e ∈ improvingEdges t c span.1 span.2, t.merit.score e c = bestFom t c span.1 span.2) ∧
    ∀ e ∈ improvingEdges t c span.1 span.2, t.merit.score e c ≠ .nan →
      (t.merit.score e c).rank ≤ (bestFom t c span.1 span.2).rank := by
  obtain ⟨hresult, hone, -, hall⟩ := foldl_best (fun e => t.merit.score e c)
    (improvingEdges t c span.1 span.2) (show Score.unreachable ≠ .nan from nofun)
  unfold bestFom
  rw [if_pos hopen]
  exact ⟨hresult, hone, hall⟩

theorem keyOf?_eq_none_of_closed (c : Chart) {span : Nat × Nat}
    (hclosed : ¬ t.limits.isOpen span.1 span.2 = true) : keyOf? t c span = none := by
  unfold keyOf? bestFom
  rw [if_neg hclosed]
  rfl

/-- If improving edges have reachable figures, a span has a key when it is open and has one,
and then the key is one of their figures and bounds the others. -/
theorem keyOf?_cases (c : Chart) (span : Nat × Nat)
    (hreach : t.limits.isOpen span.1 span.2 = true →
      ∀ e ∈ improvingEdges t c span.1 span.2, (t.merit.score e c).isReachable = true) :
    match keyOf? t c span with
    | none => t.limits.isOpen span.1 span.2 = true → ∀ e, e ∉ improvingEdges t c span.1 span.2
    | some fom => (∃ e ∈ improvingEdges t c span.1 span.2, t.merit.score e c = fom) ∧
        ∀ e ∈ improvingEdges t c span.1 span.2, (t.merit.score e c).rank ≤ fom.rank := by
  by_cases hopen : t.limits.isOpen span.1 span.2 = true
  · obtain ⟨-, hone, hall⟩ := bestFom_spec (t := t) c hopen
    have hle : ∀ e ∈ improvingEdges t c span.1 span.2,
        (t.merit.score e c).rank ≤ (bestFom t c span.1 span.2).rank := fun e he =>
      hall e he (Score.isReachable_iff.1 (hreach hopen e he)).1
    unfold keyOf?
    by_cases hkey : (bestFom t c span.1 span.2).isReachable = true
    · rw [if_pos hkey]
      refine ⟨hone.resolve_left fun hun => ?_, hle⟩
      rw [hun] at hkey
      cases hkey
    · rw [if_neg hkey]
      intro _ e he
      refine hkey (Score.isReachable_mono (hreach hopen e he) ?_ (hle e he))
      rcases hone with hun | ⟨f, hf, heq⟩
      · rw [hun]
        exact nofun
      · rw [← heq]
        exact (Score.isReachable_iff.1 (hreach hopen f hf)).1
  · rw [keyOf?_eq_none_of_closed c hopen]
    exact fun hyes => absurd hyes hopen

/-- A key computed anew says what it should. -/
theorem tells_keyOf? (hrates : RatesInside t) (c : Chart) (span : Nat × Nat) :
    Tells t c span (keyOf? t c span) := by
  have hcases := keyOf?_cases (t := t) c span fun _ e he => by
    rw [hrates]
    exact Coherent.isReachable_of_accepts (mem_improvingEdges.1 he).2
  simp only [hrates _ _] at hcases
  exact hcases

/-- What keys may say of the improving edges over their spans: a key computed anew says it,
it stays so while the edges stay the same, and a span that has a key has an improving edge. -/
structure KeyRule (t : Task) (chain : Nat) (meaning : Chart → Nat × Nat → Option Score → Prop) :
    Prop where
  anew : ∀ c span, c.Sound t chain → Wide t span → meaning c span (keyOf? t c span)
  congr : ∀ c c' span key, meaning c span key →
    improvingEdges t c' span.1 span.2 = improvingEdges t c span.1 span.2 → meaning c' span key
  edge : ∀ c span fom, meaning c span (some fom) → ∃ e, e ∈ improvingEdges t c span.1 span.2

theorem keyRule_tells (hrates : RatesInside t) (chain : Nat) : KeyRule t chain (Tells t) where
  anew c span _ _ := tells_keyOf? hrates c span
  congr c c' span key h hedges := by
    cases key <;> simpa only [Tells, hedges] using h
  edge c span fom h := by
    obtain ⟨⟨e, he, -⟩, -⟩ := h
    exact ⟨e, he⟩

/-! ## Charts that differ over one span -/

/-- The second chart has other scores and lists over one span only. -/
structure Within (span : Nat × Nat) (c c' : Chart) : Prop where
  score_eq : ∀ τ, c.HasTarget τ → (τ.slot.start, τ.slot.stop) ≠ span →
    c'.scoreAt τ = c.scoreAt τ
  best_eq : ∀ x, c.HasSlot x → (x.start, x.stop) ≠ span → c'.bestAt x = c.bestAt x
  cell_eq : ∀ start stop, IsSpan c.size start stop → (start, stop) ≠ span →
    c'.cell start stop = c.cell start stop

theorem Within.refl (span : Nat × Nat) (c : Chart) : Within span c c :=
  ⟨fun _ _ _ => rfl, fun _ _ _ => rfl, fun _ _ _ _ => rfl⟩

theorem Within.store {span : Nat × Nat} (h : Within span c c') (hgrows : c.Grows c')
    (hc : c'.WellSized) (he : c'.HasTarget e.target) (hspan : (e.start, e.stop) = span) :
    Within span c (c'.store t.grammar e) where
  score_eq τ hτ hne := by
    rw [scoreAt_store hc he (hgrows.hasTarget.2 hτ), if_neg, h.score_eq τ hτ hne]
    rintro rfl
    exact hne hspan
  best_eq x hx hne := by
    rw [bestAt_store hc he (hgrows.hasSlot.2 hx), if_neg, h.best_eq x hx hne]
    rintro ⟨rfl, -⟩
    exact hne hspan
  cell_eq start stop hvalid hne := by
    rw [cell_store hc he (hgrows.size_eq ▸ hvalid), if_neg, h.cell_eq start stop hvalid hne]
    rintro ⟨⟨rfl, rfl⟩, -⟩
    exact hne hspan

theorem accepts_congr (h : c'.scoreAt e.target = c.scoreAt e.target) :
    c'.accepts e = c.accepts e :=
  congrArg (Score.improves e.inside) h

/-- An edge that is not an improvement is no better than its layer. -/
theorem rank_le_of_declined (hc : c.Sound t chain) (hg : t.grammar.WellFormed)
    (he : e.Supported t chain) (hdeclined : ¬ c.accepts e = true) :
    e.inside.rank ≤ (c.scoreAt e.target).rank :=
  Score.rank_le_of_not_improves (inside_ne_nan_of_supported hg he)
    (hc.coherent.number _ (hc.isFor.hasTarget_of_supported hg he)) hdeclined

section

variable {span other : Nat × Nat} (h : Within span c c') (hc : c.Sound t chain)
  (hg : t.grammar.WellFormed) (hother : Wide t other)
  (hnot : other ∉ parents t.sentence.size span.1 span.2)

include h hc hg hother hnot

/-- A span that is not a parent of another has no child there, so it joins the same
children. -/
theorem Within.binaryEdges_eq :
    binaryEdges t c' other.1 other.2 = binaryEdges t c other.1 other.2 := by
  have hstop := hother.2
  unfold binaryEdges
  refine List.flatMap_congr fun mid hmid => ?_
  obtain ⟨hlo, hhi⟩ := Limits.splits_inside (Interval.mem_positions.1 hmid)
  have hleftSpan : (other.1, mid) ≠ span := fun heq => hnot (by
    subst heq
    exact (mem_parents (by dsimp only; omega)).2 (Or.inr ⟨rfl, hhi, hstop⟩))
  have hrightSpan : (mid, other.2) ≠ span := fun heq => hnot (by
    subst heq
    exact (mem_parents hstop).2 (Or.inl ⟨hlo, rfl⟩))
  have hleft : IsSpan c.size other.1 mid := hc.isFor.size_eq ▸ ⟨hlo, by omega⟩
  have hright : IsSpan c.size mid other.2 := hc.isFor.size_eq ▸ ⟨hhi, hstop⟩
  unfold leftChildren rightChildren
  rw [h.cell_eq _ _ hleft hleftSpan, h.cell_eq _ _ hright hrightSpan]
  refine List.flatMap_congr fun l _ => List.flatMap_congr fun r _ =>
    List.filterMap_congr fun id hid => ?_
  obtain ⟨hlt, hexp⟩ := hg.mem_binaryWithPair.1 hid
  have hscoped := hg.children_scoped id hlt
  rw [hexp, ← hc.isFor.symbols_eq] at hscoped
  simp only [inside_eq]
  rw [h.best_eq _ ⟨hleft, hscoped.1⟩ hleftSpan, h.best_eq _ ⟨hright, hscoped.2⟩ hrightSpan]

theorem Within.improvingEdges_eq (hne : other ≠ span) :
    improvingEdges t c' other.1 other.2 = improvingEdges t c other.1 other.2 := by
  unfold improvingEdges
  rw [h.binaryEdges_eq hc hg hother hnot]
  refine List.filter_congr fun e he => ?_
  obtain ⟨id, l, r, mid, x, hjoins, -, rfl⟩ := joins_of_mem_binaryEdges hg he
  have htarget : c.HasTarget (Edge.binary t.grammar id other.1 mid other.2 x).target :=
    hc.isFor.hasTarget_mk hother.isSpan (hg.parent_lt id hjoins.production_lt) (Nat.zero_le _)
  exact accepts_congr (h.score_eq _ htarget hne)

end

end SpanFirst
end BestParse
