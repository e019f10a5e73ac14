import BestParse.Proofs.BottomUp.Commits

/-!
# Unary passes as walks over a growing list

A unary pass is defined by the edges that can be seen before it begins.  Run in place, a pass is a
loop (`Walks`).  It walks the list of the cell by position, reads the score of each symbol as it
comes to it, and its own commits extend the list ahead of it.

The two agree (`walks_iff`).  The commits of a pass aim at the layer above the one that it reads, so
that each score is still what it was before the pass.  A symbol that was listed meanwhile had no
score in any layer, so that the walk finds no edge over it, and it ends behind the last of them.

With this the passes over a span, each of them a walk and the loop of passes left at the first one
without a commit, are the unary passes (`walksPasses_iff`).
-/

namespace BestParse
namespace BottomUp

open Chart

variable {g : Grammar} {limits : Limits} {size chain start stop layer : Nat} {c₀ c : Chart}

/-! ## The loop -/

/-- The unary edges over a layer of one symbol. -/
def childEdges (g : Grammar) (c : Chart) (start stop layer : Nat) (child : NonTerminal) :
    List Edge :=
  (g.unaryWithChild child).filterMap fun id =>
    (Score.extend (g.production id).logprob (c.layerInside start stop child layer)).map
      (Edge.unary g id start stop (layer + 1))

/-- Offer edges in turn; notes whether one was committed. -/
def offerNoted (g : Grammar) (limits : Limits) (s : Bool × Progress) (es : List Edge) :
    Bool × Progress :=
  es.foldl
    (fun (changed, p) e =>
      let (committed, p) := p.offer g limits e
      (changed || committed, p))
    s

/-- The walk over the list of a span, from a position on.  The list and the scores are those of the
chart that the walk has led to. -/
inductive Walks (g : Grammar) (limits : Limits) (start stop layer : Nat) :
    Nat → Bool × Progress → Bool × Progress → Prop where
  /-- The walk is behind the list. -/
  | done {i : Nat} {s : Bool × Progress} (behind : (s.2.chart.populated start stop)[i]? = none) :
      Walks g limits start stop layer i s s
  /-- The edges over a symbol are offered. -/
  | step {i : Nat} {child : NonTerminal} {s s' : Bool × Progress}
      (listed : (s.2.chart.populated start stop)[i]? = some child)
      (rest : Walks g limits start stop layer (i + 1)
        (offerNoted g limits s (childEdges g s.2.chart start stop layer child)) s') :
      Walks g limits start stop layer i s s'

/-- At most so many walks, from a layer on, none after one that commits nothing. -/
inductive WalksPasses (g : Grammar) (limits : Limits) (start stop : Nat) :
    (passes layer : Nat) → Progress → Progress → Prop where
  | none {layer : Nat} {p : Progress} : WalksPasses g limits start stop 0 layer p p
  | last {passes layer : Nat} {p p' : Progress}
      (walk : Walks g limits start stop layer 0 (false, p) (false, p')) :
      WalksPasses g limits start stop (passes + 1) layer p p'
  | more {passes layer : Nat} {p p' p'' : Progress}
      (walk : Walks g limits start stop layer 0 (false, p) (true, p'))
      (rest : WalksPasses g limits start stop passes (layer + 1) p' p'') :
      WalksPasses g limits start stop (passes + 1) layer p p''

/-- A walk has one end. -/
theorem Walks.unique {i : Nat} {s s' s'' : Bool × Progress}
    (h : Walks g limits start stop layer i s s') (h' : Walks g limits start stop layer i s s'') :
    s' = s'' := by
  induction h with
  | done behind =>
      cases h' with
      | done => rfl
      | step listed => rw [behind] at listed; cases listed
  | step listed rest ih =>
      cases h' with
      | done behind => rw [behind] at listed; cases listed
      | step listed' rest' =>
          rw [listed] at listed'
          cases listed'
          exact ih rest'

/-! ## In the middle of a pass -/

/-- A chart in the middle of a pass, against the chart before the pass. -/
structure Underway (g : Grammar) (size chain start stop layer : Nat) (c₀ c : Chart) : Prop where
  improved : c.Improved g size chain
  listed : c₀.populated start stop <+: c.populated start stop
  below : ∀ nt < g.numNonterminals,
    c.layerInside start stop nt layer = c₀.layerInside start stop nt layer

namespace Underway

theorem refl (h : c.Improved g size chain) : Underway g size chain start stop layer c c :=
  ⟨h, List.prefix_rfl, fun _ _ => rfl⟩

theorem store (h : Underway g size chain start stop layer c₀ c) (hspan : IsSpan size start stop)
    (hlayer : layer < chain) {e : Edge} (he : c.HasTarget e.target)
    (habove : OfSpan start stop e.target ∧ e.target.layer = layer + 1) (hacc : c.accepts e = true) :
    Underway g size chain start stop layer c₀ (c.store g e) where
  improved := h.improved.commit he hacc
  listed := by
    rw [h.improved.coherent.populated_store he (h.improved.isSpan_size hspan)]
    split
    · exact h.listed.trans (List.prefix_append _ _)
    · exact h.listed
  below nt hnt := by
    have hτ : c.HasTarget ⟨⟨start, stop, nt⟩, layer⟩ :=
      h.improved.hasTarget_iff.2 ⟨⟨hspan, hnt⟩, Nat.le_of_lt hlayer⟩
    have hne : (⟨⟨start, stop, nt⟩, layer⟩ : Target) ≠ e.target := by
      intro heq
      have hsame : layer = layer + 1 := (congrArg Target.layer heq).trans habove.2
      omega
    exact (congrArg Layer.inside
      (layerAt_store_of_ne h.improved.shaped.sized he hτ hne)).trans (h.below nt hnt)

theorem offer {p : Progress} (h : Underway g size chain start stop layer c₀ p.chart)
    (hspan : IsSpan size start stop) (hlayer : layer < chain) {e : Edge}
    (he : p.chart.HasTarget e.target)
    (habove : OfSpan start stop e.target ∧ e.target.layer = layer + 1) :
    Underway g size chain start stop layer c₀ (p.offer g limits e).2.chart := by
  rw [Progress.offer_chart]
  split
  · next hyes =>
    rw [Progress.offer_fst, Bool.and_eq_true] at hyes
    exact h.store hspan hlayer he habove hyes.1
  · exact h

theorem offerNoted (limits : Limits) {es : List Edge} {s : Bool × Progress}
    (h : Underway g size chain start stop layer c₀ s.2.chart) (hspan : IsSpan size start stop)
    (hlayer : layer < chain)
    (hes : s.2.chart.Aims (fun τ => OfSpan start stop τ ∧ τ.layer = layer + 1) es) :
    Underway g size chain start stop layer c₀ (offerNoted g limits s es).2.chart := by
  induction es generalizing s with
  | nil => exact h
  | cons e es ih =>
      obtain ⟨⟨he, habove⟩, hrest⟩ := List.forall_mem_cons.1 hes
      exact ih (s := (s.1 || (s.2.offer g limits e).1, (s.2.offer g limits e).2))
        (h.offer hspan hlayer he habove)
        fun f hf => ⟨Progress.hasTarget_offer.2 (hrest f hf).1, (hrest f hf).2⟩

/-- The edges over a symbol are those that were seen before the pass. -/
theorem childEdges_eq (h : Underway g size chain start stop layer c₀ c) {child : NonTerminal}
    (hchild : child < g.numNonterminals) :
    childEdges g c start stop layer child = childEdges g c₀ start stop layer child := by
  simp only [childEdges, h.below child hchild]

/-- There is no edge over a symbol that was listed during the pass. -/
theorem childEdges_eq_nil (h : Underway g size chain start stop layer c₀ c)
    (h₀ : c₀.Improved g size chain) (hspan : IsSpan size start stop) (hlayer : layer < chain)
    {i : Nat} {child : NonTerminal} (hlisted : (c.populated start stop)[i]? = some child)
    (hlate : (c₀.populated start stop).length ≤ i) :
    childEdges g c start stop layer child = [] := by
  have hspan' : IsSpan c.size start stop := h.improved.isSpan_size hspan
  have hchild : child < g.numNonterminals :=
    h.improved.lt_of_mem_populated hspan (List.mem_of_getElem? hlisted)
  -- The symbol stands behind the old list, and no symbol is listed twice.
  have hnew : child ∉ c₀.populated start stop := by
    intro hold
    obtain ⟨later, heq⟩ := h.listed
    have hnodup := h.improved.coherent.nodup start stop hspan'
    rw [← heq] at hlisted hnodup
    rw [List.getElem?_append_right hlate] at hlisted
    exact List.disjoint_of_nodup_append hnodup hold (List.mem_of_getElem? hlisted)
  have hnone : ¬ (c₀.scoreAt ⟨⟨start, stop, child⟩, layer⟩).isReachable = true := fun hreach =>
    hnew (h₀.mem_populated_of_isReachable hspan hchild (Nat.le_of_lt hlayer) hreach)
  rw [h.childEdges_eq hchild, childEdges, List.filterMap_eq_nil_iff]
  intro id _
  rw [Option.map_eq_none_iff, Score.extend]
  exact if_neg hnone

end Underway

/-! ## Walks are passes -/

/-- Without edges over the symbols that are left, a walk changes nothing. -/
theorem Walks.of_blank {s : Bool × Progress} :
    ∀ (left : Nat) {i : Nat}, (s.2.chart.populated start stop).length ≤ i + left →
      (∀ j child, i ≤ j → (s.2.chart.populated start stop)[j]? = some child →
        childEdges g s.2.chart start stop layer child = []) →
      Walks g limits start stop layer i s s
  | 0, _, hleft, _ => .done (List.getElem?_eq_none hleft)
  | left + 1, i, hleft, hblank => by
      cases hi : (s.2.chart.populated start stop)[i]? with
      | none => exact .done hi
      | some child =>
          refine .step hi ?_
          rw [hblank i child (Nat.le_refl i) hi]
          show Walks g limits start stop layer (i + 1) s s
          exact Walks.of_blank left (by omega) fun j child hj => hblank j child (by omega)

/-- A walk over what is left of the list before the pass offers the edges that were seen over it
before the pass. -/
theorem Underway.walks (hg : g.WellFormed) (h₀ : c₀.Improved g size chain)
    (hspan : IsSpan size start stop) (hlayer : layer < chain) {left : List NonTerminal}
    {s : Bool × Progress} (h : Underway g size chain start stop layer c₀ s.2.chart)
    (walked : List NonTerminal) (hlist : c₀.populated start stop = walked ++ left) :
    Walks g limits start stop layer walked.length s
      (BottomUp.offerNoted g limits s (left.flatMap (childEdges g c₀ start stop layer))) := by
  induction left generalizing walked s with
  | nil =>
      rw [List.append_nil] at hlist
      refine Walks.of_blank _ (Nat.le_add_left _ _) fun j child hj hlisted => ?_
      exact h.childEdges_eq_nil h₀ hspan hlayer hlisted (hlist ▸ hj)
  | cons child left ih =>
      obtain ⟨later, hlater⟩ := h.listed
      have hlisted : (s.2.chart.populated start stop)[walked.length]? = some child := by
        rw [← hlater, hlist, List.append_assoc, List.getElem?_append_right (Nat.le_refl _),
          Nat.sub_self]
        rfl
      have hchild : child < g.numNonterminals :=
        h.improved.lt_of_mem_populated hspan (List.mem_of_getElem? hlisted)
      have haims : s.2.chart.Aims (fun τ => OfSpan start stop τ ∧ τ.layer = layer + 1)
          (childEdges g c₀ start stop layer child) := by
        rw [← h.childEdges_eq hchild]
        exact (aims_unaryEdges hg h.improved hspan hlayer).subset fun e he =>
          List.mem_flatMap.2 ⟨child, List.mem_of_getElem? hlisted, he⟩
      refine .step hlisted ?_
      rw [h.childEdges_eq hchild, List.flatMap_cons]
      simp only [BottomUp.offerNoted, List.foldl_append]
      have hrest := ih (h.offerNoted limits hspan hlayer haims) (walked ++ [child])
        (by rw [List.append_assoc]; exact hlist)
      rw [List.length_append] at hrest
      exact hrest

section

variable (hg : g.WellFormed) (hspan : IsSpan size start stop)

include hg hspan

/-- The walk over the list of a span is the unary pass over it. -/
theorem walks_iff (limits : Limits) {p : Progress} (h : p.chart.Improved g size chain)
    (hlayer : layer < chain) {s : Bool × Progress} :
    Walks g limits start stop layer 0 (false, p) s ↔
      s = p.unaryPass g limits start stop layer := by
  have hwalk : Walks g limits start stop layer 0 (false, p)
      (p.unaryPass g limits start stop layer) :=
    Underway.walks hg h hspan hlayer (.refl h) [] rfl
  constructor
  · intro hs
    exact hs.unique hwalk
  · rintro rfl
    exact hwalk

/-- The walks over a span, one for each layer until one commits nothing, are the unary passes. -/
theorem walksPasses_iff (limits : Limits) (p' : Progress) :
    ∀ (passes layer : Nat) {p : Progress}, layer + passes = chain →
    p.chart.Improved g size chain →
    (WalksPasses g limits start stop passes layer p p' ↔
      p' = p.unaryPassesFrom g limits start stop passes layer)
  | 0, layer, p, _, _ => by
      constructor
      · intro h
        cases h
        rfl
      · rintro rfl
        exact .none
  | passes + 1, layer, p, hchain, h => by
      have hlayer : layer < chain := by omega
      have hrest := walksPasses_iff limits p' passes (layer + 1) (by omega)
        (improved_unaryPass limits hg h hspan hlayer)
      simp only [Progress.unaryPassesFrom]
      constructor
      · intro hwalks
        cases hwalks with
        | last walk =>
            rw [← (walks_iff hg hspan limits h hlayer).1 walk]
            rfl
        | more walk rest =>
            have hpass := (walks_iff hg hspan limits h hlayer).1 walk
            rw [← hpass] at hrest ⊢
            exact hrest.1 rest
      · intro heq
        cases hpass : p.unaryPass g limits start stop layer with
        | mk changed q =>
          rw [hpass] at hrest heq
          have hwalk := (walks_iff hg hspan limits h hlayer).2 hpass.symm
          cases changed with
          | false =>
              cases heq
              exact .last hwalk
          | true => exact .more hwalk (hrest.2 heq)

end

end BottomUp
end BestParse
