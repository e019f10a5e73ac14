import BestParse.Proofs.BestFirst.Exact

/-!
# The first commit to the root

When probabilities are at most one, a derivation scores no better than its parts.  So a
derivation that the chart does not dominate has a part whose score is on its way in the
queue, and an edge that waits is at least as good as the whole (`awaited`).  When edges are
rated by their scores the edge taken is the best of those that wait, so the first edge that
completes the root is as good as any derivation of it (`bounds_of_completes`), and the
search may stop there.

The queue may be of either kind and the commit rule may compare figures of merit, since
these are the scores.
-/

namespace BestParse
namespace BestFirst

open Chart

variable {t : Task} {chain : Nat} {b : BestFirst} {s s' : State} {e : Edge}

/-! ## Derivations on their way -/

/-- A derivation is dominated, or an edge that waits is at least as good. -/
def Awaited (t : Task) (s : State) (D : Derivation) : Prop :=
  s.chart.Dominates t D ∨
    ∃ f ∈ s.queue.toList, ∀ x, D.score t.grammar = some x → x.rank ≤ f.inside.rank

theorem awaited_of_meets {D : Derivation} (h : ∀ x, D.score t.grammar = some x →
    Meets s.chart s.queue.toList (D.target t.grammar) x) : Awaited t s D := by
  cases hscore : D.score t.grammar with
  | none =>
      refine Or.inl fun x hx => ?_
      cases hscore.symm.trans hx
  | some y =>
      have honly : ∀ x, D.score t.grammar = some x → x = y := fun x hx =>
        Option.some.inj (hx.symm.trans hscore)
      rcases h y hscore with hchart | ⟨f, hf, -, hle⟩
      · exact Or.inl fun x hx => honly x hx ▸ hchart
      · exact Or.inr ⟨f, hf, fun x hx => honly x hx ▸ hle⟩

section

variable (hg : t.grammar.WellFormed) (hneg : t.grammar.Discounting)

include hg hneg

/-- No derivation is better than both its target and all edges that wait. -/
theorem awaited (h : FullyCovered .scores t chain s) (hs : s.chart.Sound t chain) {D : Derivation}
    (hD : D.Obeys t chain) : Awaited t s D := by
  induction D with
  | leaf id i => exact Or.inl (h.dominates_leaf hD hD.1)
  | unary id D ih =>
      have hid := hD.2.2.1
      rcases ih hD.1 with hdom | ⟨f, hf, hle⟩
      · exact awaited_of_meets fun x hx => h.meets_unary hs hg hD hdom hx
      · refine Or.inr ⟨f, hf, fun x hx => ?_⟩
        obtain ⟨y, hy, hxy⟩ := Derivation.score_unary_eq_some.1 hx
        exact Int.le_trans (Score.extend_le (hg.finite id hid) (hneg id hid) hxy) (hle y hy)
  | binary id L R ihl ihr =>
      have hid := hD.2.2.2.1
      have hparts : ∀ x, (Derivation.binary id L R).score t.grammar = some x →
          ∃ y z, L.score t.grammar = some y ∧ R.score t.grammar = some z ∧
            x.rank ≤ y.rank ∧ x.rank ≤ z.rank := by
        intro x hx
        obtain ⟨y, z, hy, hz, hxyz⟩ := Derivation.score_binary_eq_some.1 hx
        exact ⟨y, z, hy, hz, Score.combine_le (hg.finite id hid) (hneg id hid)
          (Derivation.score_le_zero hg hneg hD.1 hy) (Derivation.score_le_zero hg hneg hD.2.1 hz)
          hxyz⟩
      rcases ihl hD.1 with hdoml | ⟨f, hf, hle⟩
      · rcases ihr hD.2.1 with hdomr | ⟨f, hf, hle⟩
        · exact awaited_of_meets fun x hx => h.meets_binary hs hg hD hdoml hdomr hx
        · refine Or.inr ⟨f, hf, fun x hx => ?_⟩
          obtain ⟨y, z, -, hz, -, hxz⟩ := hparts x hx
          exact Int.le_trans hxz (hle z hz)
      · refine Or.inr ⟨f, hf, fun x hx => ?_⟩
        obtain ⟨y, z, hy, -, hxy, -⟩ := hparts x hx
        exact Int.le_trans hxy (hle y hy)

end

/-! ## The edge taken -/

/-- The edge taken is the best of those that wait. -/
theorem Honest.inside_le_head (h : Honest t chain s) (hrates : RatesInside t)
    (htop : s.queue.toList.head? = some e) :
    ∀ f ∈ s.queue.toList, f.inside.rank ≤ e.inside.rank := by
  have hfom := h.queue_fom hrates
  have hsorted := h.sorted
  unfold EdgeQueue.Sorted at hsorted
  obtain ⟨rest, hlist⟩ : ∃ rest, s.queue.toList = e :: rest := List.head?_eq_some_iff.1 htop
  rw [hlist] at hfom hsorted ⊢
  intro f hf
  rcases List.mem_cons.1 hf with rfl | hrest
  · exact Int.le_refl _
  · have hle := (List.pairwise_cons.1 hsorted).1 f hrest
    rw [hfom f hf, hfom e List.mem_cons_self] at hle
    exact hle

/-- A commit that completes the root is to the root. -/
theorem slot_eq_of_completes {c : Chart} (h : c.Sound t chain)
    (h' : (c.store t.grammar e).Sound t chain) (hg : t.grammar.WellFormed)
    (hsize : t.sentence.size ≠ 0) (htarget : c.HasTarget e.target)
    (hincomplete : c.isComplete t.grammar = false)
    (hcompletes : (c.store t.grammar e).isComplete t.grammar = true) :
    t.root = e.slot := by
  apply Classical.byContradiction
  intro hne
  have hroot := h.isFor.hasSlot_root hg hsize
  rw [h'.isComplete_iff hg hsize, bestAt_store h.coherent.sized htarget hroot,
    if_neg fun hraised => hne hraised.1, ← h.isComplete_iff hg hsize] at hcompletes
  cases hcompletes.symm.trans hincomplete

/-- The first commit to the root is as good as any of its derivations. -/
theorem bounds_of_completes (hg : t.grammar.WellFormed) (hneg : t.grammar.Discounting)
    (hrates : RatesInside t) (hsize : t.sentence.size ≠ 0) (hhonest : Honest t chain s)
    (hcovered : FullyCovered .scores t chain s) (htop : s.queue.toList.head? = some e)
    (haccepted : b.rule.accepts s.chart e = true)
    (hincomplete : s.chart.isComplete t.grammar = false)
    (hcompletes : (s.chart.store t.grammar e).isComplete t.grammar = true) :
    (s.chart.store t.grammar e).Bounds t chain t.root := by
  have hsound := hhonest.sound
  obtain ⟨htarget, hacc⟩ := hhonest.improves_of_accepted hg (Or.inr hrates) htop haccepted
  have hsupported := hhonest.supported e (List.mem_of_mem_head? htop)
  have hroot := slot_eq_of_completes hsound (hsound.store hg hsupported hacc) hg hsize htarget
    hincomplete hcompletes
  rw [hroot]
  intro D hD hslot y hy
  rcases awaited hg hneg hcovered hsound hD with hdom | ⟨f, hf, hle⟩
  · have hbest := hsound.rank_le_bestAt hg hD hdom hy
    rw [hslot] at hbest
    exact Int.le_trans hbest ((hsound.coherent.grows_store htarget hacc).best_le _ htarget.1)
  · calc y.rank ≤ f.inside.rank := hle y hy
      _ ≤ e.inside.rank := hhonest.inside_le_head hrates htop f hf
      _ ≤ _ := hsound.coherent.inside_le_bestAt_store htarget hacc

/-! ## Searches for the root -/

/-- The invariant of a search that stops at the root: the root has no score while the search
goes on, and its best score once it is done. -/
structure RootTracked (t : Task) (chain : Nat) (s : State) : Prop
    extends OnTrack .scores (Honest t chain) t chain s where
  incomplete : s.phase = .searching → s.chart.isComplete t.grammar = false
  bounds : s.phase ≠ .searching → s.chart.Bounds t chain t.root

/-- Seeding does not complete a root over two words or more. -/
theorem Seeding.incomplete {pending slots : List Slot}
    (h : Seeding t chain t.sentence.size pending slots s) (hg : t.grammar.WellFormed)
    (hwords : 2 ≤ t.sentence.size) : s.chart.isComplete t.grammar = false := by
  have hsize : t.sentence.size ≠ 0 := by omega
  have hroot := h.sound.isFor.hasSlot_root hg hsize
  have hblank := h.only_words _ (h.sound.coherent.hasTarget_topOf hroot) (by
    rintro ⟨hone, -⟩
    change t.sentence.size = 0 + 1 at hone
    omega)
  rw [← h.sound.coherent.best_eq _ hroot] at hblank
  cases hcomplete : s.chart.isComplete t.grammar with
  | false => rfl
  | true =>
      rw [h.sound.isComplete_iff hg hsize, hblank] at hcomplete
      cases hcomplete

/-- The search is over after the seeding if the root is complete already. -/
theorem State.phase_seed (t : Task) (untilExhausted : Bool) (s : State) :
    (s.seed t untilExhausted).phase =
      if (s.seed t untilExhausted).chart.isComplete t.grammar && !untilExhausted then .done
      else .searching := rfl

theorem rootTracked_seed (hg : t.grammar.WellFormed) (hrates : RatesInside t) (b : BestFirst)
    (hincomplete : ((b.start t).seed t b.untilExhausted).chart.isComplete t.grammar = false) :
    RootTracked t b.maxChain ((b.start t).seed t b.untilExhausted) := by
  refine ⟨honest_seed hg (Or.inr hrates) (Or.inr hrates), fun _ => hincomplete, fun hphase => ?_⟩
  simp [State.phase_seed, hincomplete] at hphase

theorem RootTracked.next (h : RootTracked t b.maxChain s) (hg : t.grammar.WellFormed)
    (hneg : t.grammar.Discounting) (hrates : RatesInside t) (hsize : t.sentence.size ≠ 0)
    (huntil : b.untilExhausted = false) (hsteady : Steady t b.maxChain s)
    (hstep : b.step t s = .next s') : RootTracked t b.maxChain s' := by
  have htrack := h.toOnTrack.next (honest_discipline hg (Or.inr hrates)) hg hsteady hstep
  obtain ⟨hphase, e, htop, hmoves⟩ := step_next hstep
  have hincomplete := h.incomplete hphase
  cases hmoves with
  | skip declined chart_eq frontier_eq queue_eq phase_eq faulty_eq =>
      refine ⟨htrack, fun _ => ?_, fun hdone => absurd phase_eq hdone⟩
      rw [chart_eq]
      exact hincomplete
  | complete accepted completes stops chart_eq frontier_eq queue_eq phase_eq faulty_eq =>
      refine ⟨htrack, fun hsearching => ?_, fun _ => ?_⟩
      · cases phase_eq.symm.trans hsearching
      · rw [chart_eq]
        exact bounds_of_completes hg hneg hrates hsize h.good (h.covered hphase) htop accepted
          hincomplete completes
  | expand before state_eq accepted continues chart_eq frontier_eq queue_eq phase_eq faulty_eq =>
      have hsearching : s'.phase = .searching := by
        rw [state_eq, State.phase_expand]
        exact phase_eq
      refine ⟨htrack, fun _ => ?_, fun hdone => absurd hsearching hdone⟩
      rw [state_eq, State.chart_expand, chart_eq]
      -- A search that stops at the root would have stopped.
      cases hcomplete : (s.chart.store t.grammar e).isComplete t.grammar with
      | false => rfl
      | true => cases (continues hcomplete).symm.trans huntil

/-- A search for the root that the seeding does not complete ends with a sound chart that bounds
it. -/
theorem parse_bounds_unseeded_root (hg : t.grammar.WellFormed) (hneg : t.grammar.Discounting)
    (hrates : RatesInside t) (hsize : t.sentence.size ≠ 0)
    (hincomplete : ((b.start t).seed t b.untilExhausted).chart.isComplete t.grammar = false)
    (huntil : b.untilExhausted = false) (hpops : b.maxPops = 0) :
    (b.parse t).1.chart.Sound t b.maxChain ∧
      (b.parse t).1.chart.Bounds t b.maxChain t.root ∧
      (b.parse t).1.outcome = (b.parse t).1.chart.outcome t.grammar := by
  obtain ⟨s, htracked, hchart, houtcome, hended⟩ := parse_ends hg b
    (rootTracked_seed hg hrates b hincomplete) fun s s' hsteady htracked hstep =>
      htracked.next hg hneg hrates hsize huntil hsteady hstep
  rw [hchart]
  refine ⟨htracked.good.sound, ?_, houtcome⟩
  by_cases hphase : s.phase = .searching
  · have hexact := FullyCovered.exact_of_exhausted (htracked.covered hphase)
      htracked.good.sound hg ((hended hpops).resolve_left fun hdone => hdone hphase)
    exact hexact.bounds hg _
  · exact htracked.bounds hphase

/-- A search for the root over two words or more ends with a sound chart that bounds it. -/
theorem parse_bounds_root (hg : t.grammar.WellFormed) (hneg : t.grammar.Discounting)
    (hrates : RatesInside t) (hwords : 2 ≤ t.sentence.size) (huntil : b.untilExhausted = false)
    (hpops : b.maxPops = 0) :
    (b.parse t).1.chart.Sound t b.maxChain ∧
      (b.parse t).1.chart.Bounds t b.maxChain t.root ∧
      (b.parse t).1.outcome = (b.parse t).1.chart.outcome t.grammar := by
  obtain ⟨slots, hseeding⟩ := seeding_words hg b
  exact parse_bounds_unseeded_root hg hneg hrates (by omega) (hseeding.incomplete hg hwords) huntil
    hpops

/-- When probabilities are at most one, best-first search by scores finds the root that
bottom-up search finds, although it stops at the first commit to it.  This holds for every
frontier, commit rule and queue. -/
theorem root_agrees {d : Draft} {t : Task} (hbuild : d.build = .ok t.grammar)
    (hneg : ∀ id, id < t.grammar.numProductions →
      (t.grammar.production id).logprob.isAtMost .certain = true)
    (hwords : 2 ≤ t.sentence.size) (hmerit : t.merit = .inside) (b : BestFirst)
    (huntil : b.untilExhausted = false) (hpops : b.maxPops = 0) (b' : BottomUp)
    (hchain : b.maxChain = b'.maxChain) :
    (b.parse t).1.outcome = (b'.parse t).1.outcome ∧
    ((b.parse t).1.chart.rootInside t.grammar).Agrees
      ((b'.parse t).1.chart.rootInside t.grammar) ∧
    ((b.parse t).1.faulty = true → (b'.parse t).1.faulty = true) := by
  have hg := wellFormed_of_build hbuild
  have hrates : RatesInside t := by
    intro e c
    rw [hmerit]
    rfl
  obtain ⟨hsound, hbounds, houtcome⟩ := parse_bounds_root (b := b) hg
    (fun id hid => (Score.isAtMost_iff.1 (hneg id hid)).2.2) hrates hwords huntil hpops
  have hexact := b'.exact_parse hg
  rw [← hchain] at hexact
  have hroot := hsound.agrees_rootInside hexact.toSound hg hbounds (hexact.bounds hg _)
  refine ⟨houtcome.trans (hsound.outcome_eq hexact.toSound hg hroot), hroot, fun hfaulty => ?_⟩
  rcases faulty_parse hg b' hfaulty with hfault | ⟨e, he⟩
  · exact hfault
  · rw [hmerit] at he
    cases he

/-- A search with a memo queue that compares figures of merit finds the best root, also with a
circle of unary productions. -/
theorem root_agrees_circular :
    ({ BestFirst.new .ghost .heuristic .memo with maxChain := 2 }.parse circularTask).1.outcome =
      .parsed ∧
    (({ BestFirst.new .ghost .heuristic .memo with maxChain := 2 }.parse
      circularTask).1.chart.rootInside circularTask.grammar).Agrees (.ofWholeUnits (-9)) := by
  have hparsed : ((BottomUp.mk .productions 2 {}).parse circularTask).1.outcome = .parsed := by
    decide +kernel
  have hvalue : ((BottomUp.mk .productions 2 {}).parse circularTask).1.chart.rootInside
      circularTask.grammar = .ofWholeUnits (-9) := by decide +kernel
  have hagree := root_agrees (t := circularTask) circularDraft_builds (by decide +kernel)
    (by decide +kernel) rfl { BestFirst.new .ghost .heuristic .memo with maxChain := 2 }
    rfl rfl (.mk .productions 2 {}) rfl
  obtain ⟨houtcome, hroot, -⟩ := hagree
  rw [hvalue] at hroot
  exact ⟨houtcome.trans hparsed, hroot⟩

end BestFirst
end BestParse
