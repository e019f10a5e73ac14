import BestParse.Proofs.BestFirst.Course
import BestParse.Proofs.Chart.Reading

/-!
# The trees of best-first search by scores

When edges are rated by their scores and probabilities are at most one, edges are
committed from the best to the worst.  An edge made over a commit is no better than the
commit, so every edge that waits is at most as good as every edge stored in a turn.  That
is the order of `Ordered`.

It follows that no stored edge is overtaken by its own production: a child raised by a
later commit is raised to at most the score of the edge that stands on it
(`Ordered.settled_store`).  So the tree has the score of the root at every moment of the
search, also when the search is stopped early.
-/

namespace BestParse

/-- No stored edge has been overtaken by its own production. -/
def Chart.Settled (g : Grammar) (c : Chart) : Prop :=
  ∀ τ e x, c.HasTarget τ → (c.layerAt τ).edge = some e → e.scoreOver? g c = some x →
    x.rank ≤ e.inside.rank

namespace BestFirst

open Chart

variable {t : Task} {chain : Nat} {b : BestFirst} {s s' : State} {e : Edge}

/-- What waits is no better than what was stored over other edges. -/
def Ordered (c : Chart) (waiting : List Edge) : Prop :=
  ∀ τ p, c.HasTarget τ → (c.layerAt τ).edge = some p → p.kind ≠ .lexical →
    ∀ f ∈ waiting, f.inside.rank ≤ p.inside.rank

/-! ## What a commit leaves -/

/-- The present score of an edge's production is stored at the edge's target or waits. -/
theorem FullyCovered.meets (h : FullyCovered .scores t chain s) (hg : t.grammar.WellFormed)
    (hs : s.chart.Sound t chain) (he : e.Licensed t chain) {x : Score}
    (hx : e.scoreOver? t.grammar s.chart = some x) :
    Meets s.chart s.queue.toList e.target x := by
  have hparent := he.parent_eq
  unfold Edge.scoreOver? at hx
  cases hexp : (t.grammar.production e.production).expansion with
  | lexical w =>
      rw [hexp] at hx
      obtain ⟨hi, hstop, hlayer, hword⟩ := he.fits_of hexp
      have hleaf : (Derivation.leaf e.production e.start).Obeys t chain :=
        ⟨hi, he.production_lt, by rw [hword, hexp]; rfl⟩
      have hdominates := h.dominates_leaf hleaf hleaf.1 x hx
      unfold Edge.target Edge.slot
      rw [hstop, hlayer, hparent]
      exact Or.inl hdominates
  | unary child =>
      rw [hexp] at hx
      obtain ⟨-, hpos, hle, hopen, hallows⟩ := he.fits_of hexp
      have hchild := he.hasTarget_child hg hs.isFor hexp
      rw [hparent] at hallows
      have hmade := (mem_unaryCandidates hg (c := s.chart)
        (τ := ⟨⟨e.start, e.stop, child⟩, e.layer - 1⟩)).2
        ⟨by rw [hs.isFor.maxChain_eq]; change e.layer - 1 < chain; omega, hopen, e.production, x,
          he.production_lt, hexp, hallows, hx, rfl⟩
      have hmeets := Covered.unary h _ hchild not_false _ hmade
      unfold Edge.target Edge.slot
      rw [hparent, ← Nat.sub_add_cancel hpos]
      exact hmeets
  | binary l r =>
      rw [hexp] at hx
      obtain ⟨hstop, hlayer, hopen, hmid, hallows⟩ := he.fits_of hexp
      obtain ⟨hlo, hhi⟩ := Limits.splits_inside hmid
      rw [hparent] at hallows
      have hmade := (edge?_eq_some (c := s.chart)
        (p := ⟨e.production, e.start, e.mid, e.stop⟩)).2
        ⟨hopen, hmid, hallows, l, r, x, hexp, hx, rfl⟩
      have hmeets := Covered.binary h ⟨e.production, e.start, e.mid, e.stop⟩ l r _
        ⟨he.production_lt, hlo, hhi, hstop⟩ hexp not_false not_false hmade
      unfold Edge.target Edge.slot
      rw [hparent, hlayer]
      exact hmeets

section

variable (hg : t.grammar.WellFormed) (hneg : t.grammar.Discounting) (hrates : RatesInside t)
  (hhonest : Honest t chain s) (hcourse : Improving t chain s.chart s.queue.toList)
  (htop : s.queue.toList.head? = some e) (hacc : s.chart.accepts e = true)

include hg hcourse htop

theorem hasTarget_head : s.chart.HasTarget e.target :=
  (hcourse.licensed hg (List.mem_of_mem_head? htop)).hasTarget hg (hcourse.sound hg).isFor

/-- A stored edge was stored before, or was just committed and is the best of those that
waited. -/
theorem stored_cases {τ : Target} {p : Edge} (hτ : s.chart.HasTarget τ)
    (hp : ((s.chart.store t.grammar e).layerAt τ).edge = some p) :
    p = e ∨ (s.chart.layerAt τ).edge = some p := by
  rw [edge_store (hcourse.sound hg).coherent.shaped (hasTarget_head hg hcourse htop) hτ] at hp
  split at hp
  · exact Or.inl (Option.some.inj hp).symm
  · exact Or.inr hp

include hrates hhonest in
/-- What waited is no better than what is stored now. -/
theorem Ordered.store (h : Ordered s.chart s.queue.toList) :
    Ordered (s.chart.store t.grammar e) s.queue.toList := by
  intro τ p hτ hp hkind f hf
  rcases stored_cases hg hcourse htop hτ hp with rfl | hold
  · exact hhonest.inside_le_head hrates htop f hf
  · exact h τ p hτ hold hkind f hf

include hneg hrates hhonest hacc in
/-- No stored edge is overtaken by a commit. -/
theorem Ordered.settled_store (h : Ordered s.chart s.queue.toList)
    (hcovered : FullyCovered .scores t chain s) (hsettled : s.chart.Settled t.grammar) :
    (s.chart.store t.grammar e).Settled t.grammar := by
  have hsound := hcourse.sound hg
  have he := List.mem_of_mem_head? htop
  have hlicensed := hcourse.licensed hg he
  have hhead := hhonest.inside_le_head hrates htop
  intro τ p x hτ hp hx
  rcases stored_cases hg hcourse htop hτ hp with rfl | hold
  · rcases hsound.scoreOver?_store hneg hg (hcourse.supported hg he) hacc hlicensed hx with
      hsame | ⟨-, hle⟩
    · -- The production's score was stored at the target, which was worse, or waited.
      rcases hcovered.meets hg hsound hlicensed hsame with hstored | ⟨f, hf, -, hle⟩
      · exact Int.le_trans hstored (Int.le_of_lt (Score.improves_iff.1 hacc).2.2)
      · exact Int.le_trans hle (hhead f hf)
    · exact hle
  · have hlicensed' := (Course.linked hcourse hg).1.licensed τ p hτ hold
    rcases hsound.scoreOver?_store hneg hg (hcourse.supported hg he) hacc hlicensed' hx with
      hsame | ⟨hkind, hle⟩
    · exact hsettled τ p x hτ hold hsame
    · exact Int.le_trans hle (h τ p hτ hold hkind e he)

end

/-! ## What an expansion adds -/

/-- The edges of an expansion lead to its target. -/
theorem target_mem_below (hg : t.grammar.WellFormed) {pending : Slot → Prop} {slots : List Slot}
    (hregular : Regular t chain pending slots s) {target : Target}
    (htarget : s.chart.HasTarget target) {effect : Effect}
    (hraised : effect.raised = true → s.chart.topOf target.slot = target) {f : Edge}
    (hf : f ∈ candidates t s target effect) : target ∈ f.below t.grammar s.chart := by
  obtain ⟨x, layer⟩ := target
  rcases List.mem_append.1 hf with hunary | hbinary
  · obtain ⟨-, -, id, y, -, hexp, -, -, rfl⟩ := (mem_unaryCandidates hg).1 hunary
    simp [Edge.below, Edge.unary, hexp]
  · obtain ⟨p, hp, hedge⟩ := List.mem_filterMap.1 hbinary
    obtain ⟨-, -, -, l, r, y, hexp, -, rfl⟩ := edge?_eq_some.1 hedge
    unfold reach at hp
    split at hp
    · next hyes =>
      rw [hregular.isFor.size_eq] at hp
      have htop := hraised hyes
      dsimp only at htop hp
      rcases Frontier.child_of_mem_places hg hregular.tracks (hregular.isSpan htarget.1) hp with
        ⟨r', hexp', hstart, hmid⟩ | ⟨l', hexp', hmid, hstop⟩
      · cases hexp.symm.trans hexp'
        simp [Edge.below, Edge.binary, hexp, hstart, hmid, htop]
      · cases hexp.symm.trans hexp'
        simp [Edge.below, Edge.binary, hexp, hmid, hstop, htop]
    · cases hp

section

variable (hg : t.grammar.WellFormed) {pending : Slot → Prop} {slots : List Slot}
  (hregular : Regular t chain pending slots s)

include hg hregular

/-- The edges that an expansion makes are no better than its target. -/
theorem candidates_le (hneg : t.grammar.Discounting) (hsound : s.chart.Sound t chain)
    {target : Target} (htarget : s.chart.HasTarget target) {effect : Effect}
    (hraised : effect.raised = true → s.chart.topOf target.slot = target) {f : Edge}
    (hf : f ∈ candidates t s target effect) :
    f.inside.rank ≤ (s.chart.scoreAt target).rank := by
  obtain ⟨hlicensed, hscore⟩ := made_candidates hg hregular htarget hf
  exact hsound.scoreOver?_le_below hneg hg hlicensed hscore _
    (target_mem_below hg hregular htarget hraised hf)

/-- No edge that an expansion makes is for a layer that seeds are for. -/
theorem not_ofWord_candidates {target : Target} (htarget : s.chart.HasTarget target)
    {effect : Effect} {f : Edge} (hf : f ∈ candidates t s target effect) (i : Nat) :
    ¬ OfWord i f.target := by
  rintro ⟨hstart, hstop, hlayer⟩
  rcases List.mem_append.1 hf with hunary | hbinary
  · obtain ⟨-, -, id, x, -, -, -, -, rfl⟩ := (mem_unaryCandidates hg).1 hunary
    cases hlayer
  · obtain ⟨p, hp, hedge⟩ := List.mem_filterMap.1 hbinary
    obtain ⟨-, -, -, l, r, x, -, -, rfl⟩ := edge?_eq_some.1 hedge
    obtain ⟨-, hlo, hhi, -⟩ := hregular.inside_of_mem_reach hg htarget hp
    change p.start = i at hstart
    change p.stop = i + 1 at hstop
    omega

end

/-! ## Turns -/

/-- An edge that waits after a turn waited before, or was made over the edge that the turn
committed and is no better than that. -/
theorem waits_moves (hg : t.grammar.WellFormed) (hneg : t.grammar.Discounting)
    {pending : Slot → Prop} {slots : List Slot} (hregular : Regular t chain pending slots s)
    (hcourse : Improving t chain s.chart s.queue.toList) (htop : s.queue.toList.head? = some e)
    (hgate : b.rule.accepts s.chart e = true → s.chart.accepts e = true)
    (hmoves : Moves b t s e s') {f : Edge} (hf : f ∈ s'.queue.toList) :
    f ∈ s.queue.toList ∨ b.rule.accepts s.chart e = true ∧ f.inside.rank ≤ e.inside.rank ∧
      ∀ i, ¬ OfWord i f.target := by
  have hwaited : ∀ q : EdgeQueue, q = s.queue.pop.2 → ∀ f ∈ q.toList, f ∈ s.queue.toList := by
    intro q hq f hf
    rw [hq, EdgeQueue.toList_pop] at hf
    exact List.mem_of_mem_tail hf
  cases hmoves with
  | skip declined chart_eq frontier_eq queue_eq phase_eq faulty_eq =>
      exact Or.inl (hwaited _ queue_eq f hf)
  | complete accepted completes stops chart_eq frontier_eq queue_eq phase_eq faulty_eq =>
      exact Or.inl (hwaited _ queue_eq f hf)
  | expand before state_eq accepted continues chart_eq frontier_eq queue_eq phase_eq faulty_eq =>
      rw [state_eq, State.queue_expand] at hf
      rcases mem_offered _ hf with hold | ⟨f, hmade, rfl⟩
      · exact Or.inl (hwaited _ queue_eq f hold)
      · have htarget := hasTarget_head hg hcourse htop
        have hsound := hcourse.sound hg
        have hbefore := hregular.store htarget chart_eq frontier_eq faulty_eq (hwaited _ queue_eq)
        have hsound' : before.chart.Sound t chain := by
          rw [chart_eq]
          exact hsound.store hg (hcourse.supported hg (List.mem_of_mem_head? htop))
            (hgate accepted)
        have htarget' : before.chart.HasTarget e.target := by
          rw [chart_eq]
          exact htarget
        have hscore : before.chart.scoreAt e.target = e.inside := by
          rw [chart_eq, scoreAt_store hsound.coherent.sized htarget htarget, if_pos rfl]
        have hle := candidates_le hg hbefore hneg hsound' htarget' (fun hraised => by
          rw [chart_eq, topOf_store hsound.coherent.sized htarget htarget.1,
            if_pos ⟨rfl, hraised⟩]) hmade
        rw [hscore] at hle
        have hwide := not_ofWord_candidates hg hbefore htarget' hmade
        exact Or.inr ⟨accepted, hle, hwide⟩

/-- The invariant of a search by scores. -/
structure Faithful (t : Task) (chain : Nat) (s : State) : Prop
    extends OnTrack .scores (Honest t chain) t chain s where
  course : Improving t chain s.chart s.queue.toList
  ordered : Ordered s.chart s.queue.toList
  settled : s.chart.Settled t.grammar

theorem Faithful.next (h : Faithful t b.maxChain s) (hg : t.grammar.WellFormed)
    (hneg : t.grammar.Discounting) (hrates : RatesInside t) (hsteady : Steady t b.maxChain s)
    (hstep : b.step t s = .next s') : Faithful t b.maxChain s' := by
  have htrack := h.toOnTrack.next (honest_discipline hg (Or.inr hrates)) hg hsteady hstep
  obtain ⟨pending, slots, hregular, hnone⟩ := hsteady
  obtain ⟨hphase, e, htop, hmoves⟩ := step_next hstep
  have hgate : b.rule.accepts s.chart e = true → s.chart.accepts e = true := fun haccepted =>
    (h.good.improves_of_accepted hg (Or.inr hrates) htop haccepted).2
  have hcourse := OnCourse.moves h.course hg hregular htop hgate hmoves
  have hwaits : ∀ f ∈ s'.queue.toList, _ := fun f hf =>
    waits_moves hg hneg hregular h.course htop hgate hmoves hf
  rcases hmoves.chart_cases with ⟨hdeclined, hchart⟩ | ⟨haccepted, hchart⟩
  · refine ⟨htrack, hcourse, ?_, hchart ▸ h.settled⟩
    rw [hchart]
    intro τ p hτ hp hkind f hf
    rcases hwaits f hf with hold | ⟨haccepted, -⟩
    · exact h.ordered τ p hτ hp hkind f hold
    · cases haccepted.symm.trans hdeclined
  · have hordered := h.ordered.store hg hrates h.good h.course htop
    refine ⟨htrack, hcourse, ?_, ?_⟩
    · rw [hchart]
      intro τ p hτ hp hkind f hf
      rcases hwaits f hf with hold | ⟨-, hle, -⟩
      · exact hordered τ p hτ hp hkind f hold
      · exact Int.le_trans hle (hordered τ p hτ hp hkind e (List.mem_of_mem_head? htop))
    · rw [hchart]
      exact h.ordered.settled_store hg hneg hrates h.good h.course htop (hgate haccepted)
        (h.covered hphase) h.settled

/-! ## Seeding -/

/-- Every stored edge is a lexical production over its word. -/
def OnlyLexical (g : Grammar) (c : Chart) : Prop :=
  ∀ τ e, c.HasTarget τ → (c.layerAt τ).edge = some e → ∃ id i, e = Edge.lexical g id i

theorem OnlyLexical.seed {c : Chart} (h : OnlyLexical t.grammar c) (hc : c.Sound t chain)
    (hg : t.grammar.WellFormed) {i : Nat} (hi : i < t.sentence.size) :
    OnlyLexical t.grammar (c.seed t.grammar (t.sentence.token? i) i).2 := by
  rw [seed_eq]
  refine (seedAll_induction (I := fun c => c.Sound t chain ∧ OnlyLexical t.grammar c)
    ⟨hc, h⟩ ?_).2
  rintro c' id hid ⟨hsound, honly⟩ hacc
  have hsup : (Edge.lexical t.grammar id i).Supported t chain :=
    supported_of_mem_lexicalWith hg hi hid
  refine ⟨hsound.store hg hsup hacc, fun τ e hτ he => ?_⟩
  rw [edge_store hsound.coherent.shaped (hsound.isFor.hasTarget_of_supported hg hsup) hτ] at he
  split at he
  · exact ⟨id, i, (Option.some.inj he).symm⟩
  · exact honly τ e hτ he

theorem onlyLexical_words (hg : t.grammar.WellFormed) (b : BestFirst) :
    OnlyLexical t.grammar
      ((List.range t.sentence.size).foldl (fun s i => s.seedWord t i) (b.start t)).chart := by
  have hwords := seed_induction (t := t)
    (I := fun i s => Sowing t b.maxChain (fun _ _ => True) i [] s ∧ OnlyLexical t.grammar s.chart)
    (J := fun i rest s => Sowing t b.maxChain (fun _ _ => True) (i + 1) (wordSlots i rest) s ∧
      OnlyLexical t.grammar s.chart) (s := b.start t)
    (fun i s hi h work => ?_) (fun i nt rest s hi h => ?_) (fun _ _ _ h => h) ?_ _ (Nat.le_refl _)
  · exact hwords.2
  · obtain ⟨⟨slots, hseeding⟩, -⟩ := h.1
    exact ⟨h.1.word hg (fun _ _ _ => trivial) hi work, h.2.seed hseeding.sound hg hi⟩
  · refine ⟨h.1.slot hg, ?_⟩
    rw [State.chart_expand]
    exact h.2
  · refine ⟨sowing_start b t _, fun τ e _ he => ?_⟩
    change ((empty t.grammar t.sentence.size b.maxChain).layerAt τ).edge = some e at he
    rw [layerAt_empty] at he
    cases he

theorem faithful_seed (hg : t.grammar.WellFormed) (hrates : RatesInside t) (b : BestFirst) :
    Faithful t b.maxChain ((b.start t).seed t b.untilExhausted) := by
  have hlexical := onlyLexical_words hg b (t := t)
  have hcourse := onCourse_seed hg (fun _ _ haccepts => haccepts) b (t := t)
  refine ⟨honest_seed hg (Or.inr hrates) (Or.inr hrates), hcourse, ?_, ?_⟩
  · intro τ p hτ hp hkind
    obtain ⟨id, i, rfl⟩ := hlexical τ p hτ hp
    exact absurd rfl hkind
  · intro τ p x hτ hp hx
    have hlicensed := (Course.linked hcourse hg).1.licensed τ p hτ hp
    have hkind := hlicensed.kind_eq
    obtain ⟨id, i, rfl⟩ := hlexical τ p hτ hp
    unfold Edge.scoreOver? at hx
    cases hexp : (t.grammar.production (Edge.lexical t.grammar id i).production).expansion with
    | lexical w =>
        rw [hexp] at hx
        cases hx
        exact Int.le_refl _
    | unary child =>
        rw [hexp] at hkind
        cases hkind
    | binary l r =>
        rw [hexp] at hkind
        cases hkind

/-- Every tree of best-first search by scores has the score of the root, also when the search
is stopped early. -/
theorem tree_attains {d : Draft} (hbuild : d.build = .ok t.grammar) {words : Array String}
    (hsentence : t.sentence = .ofWords t.grammar words) (hneg : t.grammar.Discounting)
    (hrates : RatesInside t) (b : BestFirst)
    (hcomplete : (b.parse t).1.chart.isComplete t.grammar = true) :
    ∃ tree x, (b.parse t).1.chart.tree? t.grammar t.sentence = some tree ∧
      tree.score t.grammar = some x ∧ x.Agrees ((b.parse t).1.chart.rootInside t.grammar) := by
  have hg := wellFormed_of_build hbuild
  obtain ⟨s, hfaithful, hchart, -, -⟩ := parse_ends hg b (faithful_seed hg hrates b)
    fun s s' hsteady h hstep => h.next hg hneg hrates hsteady hstep
  rw [hchart] at hcomplete ⊢
  have hcourse := hfaithful.course
  have hsettled : s.chart.SettledOn t.grammar fun _ => True :=
    ⟨fun τ e hτ _ he => hcourse.modest hg hτ he,
      fun τ e x hτ _ he hx => hfaithful.settled τ e x hτ he hx, fun _ _ _ _ _ _ _ => trivial⟩
  exact (Course.linked hcourse hg).1.tree_attains hbuild hsentence hcomplete (hcourse.sound hg)
    hsettled trivial

end BestFirst
end BestParse
