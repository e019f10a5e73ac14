import BestParse.Proofs.BestFirst.Termination

/-!
# What the scores give is met

The scores of a chart give edges in one more step: the unary edges over its layers and the
binary edges over pairs of its slots.  A state is *covered* when each of them is met, by the
chart or by an edge that waits.  What counts as met is left open (`Reckoning`): one may ask for
the score itself, or only for some edge to the same target.

While a slot is being expanded, coverage makes an exception of the target whose unary
edges and of the slot whose binary edges are still to be made.  A commit makes the
exceptions (`Covered.commit`) and the expansion removes them (`Covered.expand`).  Binary
edges need no exception when the slot's score did not go up.

A `Discipline` is what coverage asks of an invariant of the search: every step keeps it,
keeps all that is met, and meets the edges that the step makes.  Under a discipline a search
is covered as long as it goes on (`onTrack_seed`, `OnTrack.next`).
-/

namespace BestParse
namespace BestFirst

open Chart

/-- What counts as met, and which scores give no more than others. -/
structure Reckoning where
  /-- A score is met at a target by a chart and the edges that wait. -/
  Met : Chart → List Edge → Target → Score → Prop
  /-- Over the second score, what the first one gives is met too. -/
  NoMore : Score → Score → Prop
  noMore_of_le : ∀ {x y : Score}, y ≠ .nan → x.rank ≤ y.rank → NoMore x y
  extend : ∀ {logprob child child' x : Score}, logprob.isFinite = true → NoMore child child' →
    Score.extend logprob child = some x → ∃ x', Score.extend logprob child' = some x' ∧
      ∀ c waiting τ, Met c waiting τ x' → Met c waiting τ x
  combine : ∀ {logprob left left' right right' x : Score}, logprob.isFinite = true →
    NoMore left left' → NoMore right right' → Score.combine logprob left right = some x →
      ∃ x', Score.combine logprob left' right' = some x' ∧
        ∀ c waiting τ, Met c waiting τ x' → Met c waiting τ x

/-- What is met stays met, by the chart alone and with what waits. -/
structure Reckoning.Keeps (r : Reckoning) (s s' : State) : Prop where
  held : ∀ τ x, s.chart.HasTarget τ → r.Met s.chart [] τ x → r.Met s'.chart [] τ x
  met : ∀ τ x, s.chart.HasTarget τ → r.Met s.chart s.queue.toList τ x →
    r.Met s'.chart s'.queue.toList τ x

/-- The chart holds the first words, and what the current scores give in one more step is met,
but for the unary edges over some targets and the binary edges over some slots. -/
structure Covered (r : Reckoning) (t : Task) (chain words : Nat) (lower : Target → Prop)
    (side : Slot → Prop) (s : State) : Prop where
  leaves : ∀ id i, (Derivation.leaf id i).Obeys t chain → i < words →
    r.Met s.chart [] ((Derivation.leaf id i).target t.grammar) (t.grammar.production id).logprob
  unary : ∀ τ, s.chart.HasTarget τ → ¬ lower τ → ∀ e ∈ unaryCandidates t s.chart τ,
    r.Met s.chart s.queue.toList e.target e.inside
  binary : ∀ (p : Place) l r' e, p.Inside t.grammar t.sentence.size →
    (t.grammar.production p.production).expansion = .binary l r' →
    ¬ side ⟨p.start, p.mid, l⟩ → ¬ side ⟨p.mid, p.stop, r'⟩ → p.edge? t s.chart = some e →
    r.Met s.chart s.queue.toList e.target e.inside

/-- Nothing is left to be covered. -/
abbrev FullyCovered (r : Reckoning) (t : Task) (chain : Nat) (s : State) : Prop :=
  Covered r t chain t.sentence.size (fun _ => False) (fun _ => False) s

/-- An invariant of a search that keeps what is met. -/
structure Discipline (r : Reckoning) (Good : State → Prop) (t : Task) (b : BestFirst) :
    Prop where
  congr : ∀ {s s'}, Good s → s'.chart = s.chart → s'.queue = s.queue → Good s'
  attains : ∀ {s}, Good s → s.chart.Attains t b.maxChain
  populated : ∀ {s}, Good s → ∀ x, s.chart.HasSlot x → (s.chart.bestAt x).isReachable = true →
    s.chart.isPopulated x.start x.stop x.symbol = true
  layer : ∀ {s}, Good s → ∀ τ, s.chart.HasTarget τ →
    r.NoMore (s.chart.scoreAt τ) (s.chart.scoreAt τ)
  slot : ∀ {s}, Good s → ∀ x, s.chart.HasSlot x → r.NoMore (s.chart.bestAt x) (s.chart.bestAt x)
  expand : ∀ {s pending slots target} effect, Good s → Regular t b.maxChain pending slots s →
    s.chart.HasTarget target → Good (s.expand t target effect) ∧
      r.Keeps s (s.expand t target effect) ∧ ∀ e ∈ candidates t s target effect,
        r.Met s.chart (s.expand t target effect).queue.toList e.target e.inside
  skip : ∀ {s s' e}, Good s → s.queue.toList.head? = some e → b.rule.accepts s.chart e = false →
    s'.chart = s.chart → s'.queue = s.queue.pop.2 → Good s' ∧ r.Keeps s s'
  commit : ∀ {s s' e}, Good s → s.queue.toList.head? = some e →
    b.rule.accepts s.chart e = true → s'.chart = s.chart.store t.grammar e →
      s'.queue = s.queue.pop.2 → Good s' ∧ r.Keeps s s'
  word : ∀ {s i slots}, Good s → Seeding t b.maxChain i [] slots s → i < t.sentence.size →
    ∀ s', s'.chart = (s.chart.seed t.grammar (t.sentence.token? i) i).2 → s'.queue = s.queue →
      Good s' ∧ r.Keeps s s' ∧ ∀ id, (Derivation.leaf id i).Obeys t b.maxChain →
        r.Met s'.chart [] ((Derivation.leaf id i).target t.grammar)
          (t.grammar.production id).logprob

/-- The invariant of the turns: the state is good, and covered while the search goes on. -/
structure OnTrack (r : Reckoning) (Good : State → Prop) (t : Task) (chain : Nat) (s : State) :
    Prop where
  good : Good s
  covered : s.phase = .searching → FullyCovered r t chain s

variable {t : Task} {chain words : Nat} {lower lower' : Target → Prop} {side side' : Slot → Prop}
  {s s' : State} {r : Reckoning} {Good : State → Prop} {b : BestFirst} {e : Edge}

/-! ## Edges over the current scores -/

/-- The children of a place are slots of the chart. -/
theorem hasSlots_of_inside {c : Chart} (hc : c.IsFor t chain) (hg : t.grammar.WellFormed)
    {p : Place} (hp : p.Inside t.grammar t.sentence.size) {l r : NonTerminal}
    (hexp : (t.grammar.production p.production).expansion = .binary l r) :
    c.HasSlot ⟨p.start, p.mid, l⟩ ∧ c.HasSlot ⟨p.mid, p.stop, r⟩ := by
  have hchildren := hg.children_scoped _ hp.production_lt
  rw [hexp] at hchildren
  unfold HasSlot
  rw [hc.size_eq, hc.symbols_eq]
  exact ⟨⟨⟨hp.start_lt, Nat.le_trans (Nat.le_of_lt hp.mid_lt) hp.stop_le⟩, hchildren.1⟩,
    ⟨hp.mid_lt, hp.stop_le⟩, hchildren.2⟩

theorem supported_unaryCandidates {c : Chart} (hc : c.Attains t chain) (hg : t.grammar.WellFormed)
    {τ : Target} (hτ : c.HasTarget τ) (he : e ∈ unaryCandidates t c τ) : e.Supported t chain := by
  obtain ⟨hlayer, hopen, id, x, hid, hexp, hallows, hx, rfl⟩ := (mem_unaryCandidates hg).1 he
  rw [hc.isFor.maxChain_eq] at hlayer
  exact hc.supported_unary hτ hlayer hid hexp hopen hallows hx

theorem supported_edge? {c : Chart} (hc : c.Attains t chain) (hg : t.grammar.WellFormed)
    {p : Place} (hp : p.Inside t.grammar t.sentence.size) (he : p.edge? t c = some e) :
    e.Supported t chain := by
  obtain ⟨hopen, hmid, hallows, l, r, x, hexp, hx, rfl⟩ := edge?_eq_some.1 he
  obtain ⟨hl, hr⟩ := hasSlots_of_inside hc.isFor hg hp hexp
  exact hc.supported_binary hl hr hp.production_lt hexp hopen hmid hallows hx

theorem supported_candidates (h : s.chart.Attains t chain) (hg : t.grammar.WellFormed)
    {pending : Slot → Prop} {slots : List Slot} (hregular : Regular t chain pending slots s)
    {target : Target} (htarget : s.chart.HasTarget target) {effect : Effect}
    (he : e ∈ candidates t s target effect) : e.Supported t chain := by
  rcases List.mem_append.1 he with hunary | hbinary
  · exact supported_unaryCandidates h hg htarget hunary
  · obtain ⟨p, hp, hedge⟩ := List.mem_filterMap.1 hbinary
    exact supported_edge? h hg (hregular.inside_of_mem_reach hg htarget hp) hedge

/-! ## Charts with other scores -/

theorem Covered.mono (h : Covered r t chain words lower side s)
    (hlower : ∀ τ, lower τ → lower' τ) (hside : ∀ x, side x → side' x) :
    Covered r t chain words lower' side' s where
  leaves := h.leaves
  unary τ hτ hnot := h.unary τ hτ fun hl => hnot (hlower τ hl)
  binary p l r e hp hexp hleft hright :=
    h.binary p l r e hp hexp (fun hl => hleft (hside _ hl)) fun hr => hright (hside _ hr)

/-- Coverage goes over to another chart if what is met stays met, but for the targets and slots
whose scores give more than they did. -/
theorem Covered.carry (h : Covered r t chain words lower side s) (hs : s.chart.Attains t chain)
    (hg : t.grammar.WellFormed) (hs' : s'.chart.IsFor t chain) (hkeeps : r.Keeps s s')
    (hlower : ∀ τ, s.chart.HasTarget τ → ¬ lower' τ →
      ¬ lower τ ∧ r.NoMore (s'.chart.scoreAt τ) (s.chart.scoreAt τ))
    (hside : ∀ x, s.chart.HasSlot x → ¬ side' x →
      ¬ side x ∧ r.NoMore (s'.chart.bestAt x) (s.chart.bestAt x)) :
    Covered r t chain words lower' side' s' where
  leaves id i hleaf hi :=
    hkeeps.held _ _ (hs.isFor.hasTarget hg hleaf) (h.leaves id i hleaf hi)
  unary τ hτ hnot e he := by
    rw [hs'.hasTarget_iff hs.isFor] at hτ
    obtain ⟨hlayer, hopen, id, x, hid, hexp, hallows, hx, rfl⟩ := (mem_unaryCandidates hg).1 he
    obtain ⟨hnot', hmore⟩ := hlower τ hτ hnot
    obtain ⟨x', hx', hmet⟩ := r.extend (hg.finite id hid) hmore hx
    rw [hs'.maxChain_eq, ← hs.isFor.maxChain_eq] at hlayer
    have hold := (mem_unaryCandidates hg).2
      ⟨hlayer, hopen, id, x', hid, hexp, hallows, hx', rfl⟩
    have htarget := hs.isFor.hasTarget_of_supported hg (supported_unaryCandidates hs hg hτ hold)
    exact hkeeps.met _ _ htarget (hmet _ _ _ (h.unary τ hτ hnot' _ hold))
  binary p l r' e hp hexp hleft hright he := by
    obtain ⟨hl, hr⟩ := hasSlots_of_inside hs.isFor hg hp hexp
    obtain ⟨hopen, hmid, hallows, l', r', x, hexp', hx, rfl⟩ := edge?_eq_some.1 he
    cases hexp.symm.trans hexp'
    obtain ⟨hleft', hmorel⟩ := hside _ hl hleft
    obtain ⟨hright', hmorer⟩ := hside _ hr hright
    obtain ⟨x', hx', hmet⟩ := r.combine (hg.finite _ hp.production_lt) hmorel hmorer hx
    have hold := edge?_eq_some.2 ⟨hopen, hmid, hallows, l, r', x', hexp, hx', rfl⟩
    have htarget := hs.isFor.hasTarget_of_supported hg (supported_edge? hs hg hp hold)
    exact hkeeps.met _ _ htarget (hmet _ _ _ (h.binary p l r' _ hp hexp hleft' hright' hold))

/-! ## Expansions -/

/-- An expansion finds the edge of every place around its slot, unless a child is left for
later. -/
theorem mem_candidates_or (hg : t.grammar.WellFormed) {pending : Slot → Prop} {slots : List Slot}
    (hregular : Regular t chain pending slots s)
    (hpopulated : ∀ x, s.chart.HasSlot x → (s.chart.bestAt x).isReachable = true →
      s.chart.isPopulated x.start x.stop x.symbol = true)
    (hpending : ∀ x, pending x → side x) {target : Target} {effect : Effect}
    (hraised : side target.slot → effect.raised = true) {p : Place} {l r : NonTerminal}
    (hp : p.Inside t.grammar t.sentence.size)
    (hexp : (t.grammar.production p.production).expansion = .binary l r)
    (hleft : ¬ (side ⟨p.start, p.mid, l⟩ ∧ ⟨p.start, p.mid, l⟩ ≠ target.slot))
    (hright : ¬ (side ⟨p.mid, p.stop, r⟩ ∧ ⟨p.mid, p.stop, r⟩ ≠ target.slot))
    (hedge : p.edge? t s.chart = some e) :
    e ∈ candidates t s target effect ∨
      ¬ side ⟨p.start, p.mid, l⟩ ∧ ¬ side ⟨p.mid, p.stop, r⟩ := by
  obtain ⟨hl, hr⟩ := hasSlots_of_inside hregular.isFor hg hp hexp
  obtain ⟨-, -, -, l', r', x, hexp', hx, -⟩ := edge?_eq_some.1 hedge
  cases hexp.symm.trans hexp'
  obtain ⟨hreachl, hreachr, -⟩ := Score.combine_eq_some_iff.1 hx
  have hspanl := hregular.isSpan hl
  have hspanr := hregular.isSpan hr
  -- The other child is reachable, so it is tracked unless it is an exception itself.
  have htracked : ∀ x, s.chart.HasSlot x → (s.chart.bestAt x).isReachable = true → ¬ side x →
      x ∈ slots := by
    intro x hx hreach hside
    rcases hregular.tracked x hx (hpopulated x hx hreach) with hmem | hpend
    · exact hmem
    · exact absurd (hpending x hpend) hside
  have hplace : side target.slot →
      p ∈ s.frontier.places t.grammar t.sentence.size target.slot →
      e ∈ candidates t s target effect := by
    intro hside hp
    refine List.mem_append_right _ (List.mem_filterMap.2 ⟨p, ?_, hedge⟩)
    unfold reach
    rw [if_pos (hraised hside), hregular.isFor.size_eq]
    exact hp
  by_cases hsidel : side ⟨p.start, p.mid, l⟩
  · have heq : ⟨p.start, p.mid, l⟩ = target.slot :=
      Classical.byContradiction fun hne => hleft ⟨hsidel, hne⟩
    refine Or.inl (hplace (heq ▸ hsidel) ?_)
    rw [← heq]
    refine Frontier.mem_places_of_left hg hregular.tracks hp.production_lt hexp hspanl hspanr
      (htracked _ hr hreachr fun hsider => hright ⟨hsider, fun heq' => ?_⟩)
    exact Nat.ne_of_lt hp.start_lt (congrArg Slot.start (heq.trans heq'.symm))
  · by_cases hsider : side ⟨p.mid, p.stop, r⟩
    · have heq : ⟨p.mid, p.stop, r⟩ = target.slot :=
        Classical.byContradiction fun hne => hright ⟨hsider, hne⟩
      refine Or.inl (hplace (heq ▸ hsider) ?_)
      rw [← heq]
      exact Frontier.mem_places_of_right hg hregular.tracks hp.production_lt hexp hspanl hspanr
        (htracked _ hl hreachl hsidel)
    · exact Or.inr ⟨hsidel, hsider⟩

section

variable (hd : Discipline r Good t b) (hg : t.grammar.WellFormed) (hgood : Good s)

include hd hg hgood

/-- An expansion covers the unary edges over its target and the binary edges over its
slot. -/
theorem Covered.expand (h : Covered r t b.maxChain words lower side s) {pending : Slot → Prop}
    {slots : List Slot} (hregular : Regular t b.maxChain pending slots s)
    (hpending : ∀ x, pending x → side x) {target : Target}
    (htarget : s.chart.HasTarget target) {effect : Effect}
    (hraised : side target.slot → effect.raised = true) :
    Covered r t b.maxChain words (fun τ => lower τ ∧ τ ≠ target)
      (fun x => side x ∧ x ≠ target.slot) (s.expand t target effect) := by
  have hs := hd.attains hgood
  obtain ⟨-, hkeeps, hmade⟩ := hd.expand effect hgood hregular htarget
  have hkept := hkeeps.met
  rw [State.chart_expand] at hkept
  constructor
  · intro id i hleaf hi
    exact hkeeps.held _ _ (hs.isFor.hasTarget hg hleaf) (h.leaves id i hleaf hi)
  · rw [State.chart_expand]
    intro τ hτ hlower e he
    by_cases heq : τ = target
    · subst heq
      exact hmade e (List.mem_append_left _ he)
    · have htarget' := hs.isFor.hasTarget_of_supported hg (supported_unaryCandidates hs hg hτ he)
      exact hkept _ _ htarget' (h.unary τ hτ (fun hl => hlower ⟨hl, heq⟩) e he)
  · rw [State.chart_expand]
    intro p l r' e hp hexp hleft hright hedge
    rcases mem_candidates_or hg hregular (hd.populated hgood) hpending hraised hp hexp hleft
      hright hedge with hnew | ⟨hsidel, hsider⟩
    · exact hmade e hnew
    · have htarget' := hs.isFor.hasTarget_of_supported hg (supported_edge? hs hg hp hedge)
      exact hkept _ _ htarget' (h.binary p l r' e hp hexp hsidel hsider hedge)

/-! ## Turns -/

theorem Covered.skip (h : Covered r t b.maxChain words lower side s) (hkeeps : r.Keeps s s')
    (hchart : s'.chart = s.chart) : Covered r t b.maxChain words lower side s' := by
  have hs := hd.attains hgood
  refine h.carry hs hg (hchart ▸ hs.isFor) hkeeps ?_ ?_
  · rw [hchart]
    exact fun τ hτ hnot => ⟨hnot, hd.layer hgood τ hτ⟩
  · rw [hchart]
    exact fun x hx hnot => ⟨hnot, hd.slot hgood x hx⟩

/-- A commit leaves its target to be covered, and its slot if that was raised. -/
theorem Covered.commit (h : Covered r t b.maxChain words lower side s) (hkeeps : r.Keeps s s')
    (hsized : s.chart.WellSized) (htarget : s.chart.HasTarget e.target)
    (hchart : s'.chart = s.chart.store t.grammar e) :
    Covered r t b.maxChain words (fun τ => lower τ ∨ τ = e.target)
      (fun x => side x ∨ x = e.slot ∧ s.chart.raises e = true) s' := by
  have hs := hd.attains hgood
  refine h.carry hs hg (hchart ▸ hs.isFor.store e) hkeeps ?_ ?_
  · intro τ hτ hnot
    obtain ⟨hlower, hne⟩ := not_or.1 hnot
    rw [hchart, scoreAt_store hsized htarget hτ, if_neg hne]
    exact ⟨hlower, hd.layer hgood τ hτ⟩
  · intro x hx hnot
    obtain ⟨hside, hne⟩ := not_or.1 hnot
    rw [hchart, bestAt_store hsized htarget hx, if_neg hne]
    exact ⟨hside, hd.slot hgood x hx⟩

end

/-- A turn leaves a good state, which is covered as long as the search goes on. -/
theorem OnTrack.next (h : OnTrack r Good t b.maxChain s) (hd : Discipline r Good t b)
    (hg : t.grammar.WellFormed) (hsteady : Steady t b.maxChain s)
    (hstep : b.step t s = .next s') : OnTrack r Good t b.maxChain s' := by
  obtain ⟨pending, slots, hregular, hnone⟩ := hsteady
  obtain ⟨hphase, e, htop, hmoves⟩ := step_next hstep
  have hgood := h.good
  have hcovered := h.covered hphase
  have htarget := hregular.queued e (List.mem_of_mem_head? htop)
  cases hmoves with
  | skip declined chart_eq frontier_eq queue_eq phase_eq faulty_eq =>
      obtain ⟨hgood', hkeeps⟩ := hd.skip hgood htop declined chart_eq queue_eq
      exact ⟨hgood', fun _ => hcovered.skip hd hg hgood hkeeps chart_eq⟩
  | complete accepted completes stops chart_eq frontier_eq queue_eq phase_eq faulty_eq =>
      refine ⟨(hd.commit hgood htop accepted chart_eq queue_eq).1, ?_⟩
      rw [phase_eq]
      exact nofun
  | expand before state_eq accepted continues chart_eq frontier_eq queue_eq phase_eq faulty_eq =>
      obtain ⟨hbefore, hkeeps⟩ := hd.commit hgood htop accepted chart_eq queue_eq
      have hcommitted := hcovered.commit hd hg hgood hkeeps hregular.shaped.sized htarget chart_eq
      have hregular' := hregular.store htarget chart_eq frontier_eq faulty_eq fun f hf => by
        rw [queue_eq, EdgeQueue.toList_pop] at hf
        exact List.mem_of_mem_tail hf
      have htarget' : before.chart.HasTarget e.target := by
        rw [chart_eq]
        exact htarget
      subst state_eq
      refine ⟨(hd.expand _ hbefore hregular' htarget').1, fun _ => ?_⟩
      refine (hcommitted.expand hd hg hbefore hregular' ?_ htarget' ?_).mono ?_ ?_
      · -- What is new to the frontier was raised.
        rintro x (hold | ⟨rfl, hnew⟩)
        · exact absurd hold (hnone hphase x)
        · exact Or.inr ⟨rfl, by rw [raises, hnew, Bool.true_or]⟩
      · rintro (hfalse | ⟨-, hraises⟩)
        · cases hfalse
        · exact hraises
      · rintro τ ⟨hfalse | heq, hne⟩
        · exact hfalse
        · exact hne heq
      · rintro x ⟨hfalse | ⟨heq, -⟩, hne⟩
        · exact hfalse
        · exact hne heq

/-! ## Seeding -/

/-- The exceptions that some pending slots make among targets. -/
def LowerOf (pending : List Slot) (τ : Target) : Prop := τ.layer = 0 ∧ τ.slot ∈ pending

/-- An exception is gone when its target is expanded. -/
theorem lowerOf_of_ne {x : Slot} {pending : List Slot} {τ : Target}
    (h : LowerOf (x :: pending) τ ∧ τ ≠ ⟨x, 0⟩) : LowerOf pending τ := by
  obtain ⟨y, d⟩ := τ
  obtain ⟨⟨hlayer, hmem⟩, hne⟩ := h
  dsimp only at hlayer
  subst hlayer
  refine ⟨rfl, (List.mem_cons.1 hmem).resolve_left ?_⟩
  rintro rfl
  exact hne rfl

/-- Over an empty chart there is nothing to make. -/
theorem not_mem_unaryCandidates_empty (hg : t.grammar.WellFormed) (size chain : Nat) (τ : Target)
    (e : Edge) : e ∉ unaryCandidates t (Chart.empty t.grammar size chain) τ := by
  intro he
  obtain ⟨-, -, id, x, -, -, -, hx, -⟩ := (mem_unaryCandidates hg).1 he
  obtain ⟨hreach, -⟩ := Score.extend_eq_some_iff.1 hx
  rw [scoreAt, layerAt_empty] at hreach
  cases hreach

theorem edge?_empty_ne_some (size chain : Nat) (p : Place) (e : Edge) :
    p.edge? t (Chart.empty t.grammar size chain) ≠ some e := by
  intro he
  obtain ⟨-, -, -, l, r, x, -, hx, -⟩ := edge?_eq_some.1 he
  obtain ⟨hreach, -⟩ := Score.combine_eq_some_iff.1 hx
  rw [bestAt, bestOfSlot_empty] at hreach
  cases hreach

theorem covered_start (r : Reckoning) (b : BestFirst) (hg : t.grammar.WellFormed) :
    Covered r t b.maxChain 0 lower side (b.start t) where
  leaves _ i _ hi := absurd hi (Nat.not_lt_zero i)
  unary τ _ _ e he := absurd he (not_mem_unaryCandidates_empty hg _ _ τ e)
  binary p _ _ e _ _ _ _ he := absurd he (edge?_empty_ne_some _ _ p e)

section

variable {i : Nat} {slots : List Slot} (h : Seeding t chain i [] slots s)
  (hg : t.grammar.WellFormed) (hi : i < t.sentence.size)

include h hg hi

/-- The slots of a word that its seeding does not list keep their scores. -/
theorem Seeding.bestAt_word_le {x : Slot} (hx : s.chart.HasSlot x)
    (hnot : x ∉ wordSlots i (s.chart.seed t.grammar (t.sentence.token? i) i).1.toList) :
    ((s.chart.seed t.grammar (t.sentence.token? i) i).2.bestAt x).rank ≤
      (s.chart.bestAt x).rank := by
  have hextends := extends_seed h.sound hg hi
  have hsound := hextends.sound
  rw [seed_fst h.sound hg hi (h.populated_eq_nil hi)] at hnot
  generalize (s.chart.seed t.grammar (t.sentence.token? i) i).2 = chart at *
  have hx' := hextends.grows.hasSlot.2 hx
  by_cases hcell : x.start = i ∧ x.stop = i + 1
  · -- A slot of the word that is not listed is unreachable.
    obtain ⟨start, stop, nt⟩ := x
    dsimp only at hcell
    obtain ⟨rfl, rfl⟩ := hcell
    have hblank : ¬ (chart.bestAt ⟨start, start + 1, nt⟩).isReachable = true := fun hreach =>
      hnot (mem_wordSlots.2 ⟨rfl, rfl,
        (hsound.coherent.populated_iff _ _ _ hx'.1).2 ⟨hx'.2, hreach⟩⟩)
    rw [Score.eq_unreachable_of_not_isReachable (hsound.coherent.best_number hx') hblank]
    exact Score.negInf_rank_le _
  · exact hextends.bestAt_le h.sound hx fun d hword => hcell ⟨hword.1, hword.2.1⟩

/-- So do the layers that the seeding does not write. -/
theorem Seeding.scoreAt_word_le {τ : Target} (hτ : s.chart.HasTarget τ)
    (hnot : ¬ LowerOf (wordSlots i (s.chart.seed t.grammar (t.sentence.token? i) i).1.toList) τ) :
    ((s.chart.seed t.grammar (t.sentence.token? i) i).2.scoreAt τ).rank ≤
      (s.chart.scoreAt τ).rank := by
  have hextends := extends_seed h.sound hg hi
  by_cases hword : OfWord i τ
  · have hblank : s.chart.bestAt τ.slot = .unreachable := by
      refine Score.eq_unreachable_of_not_isReachable (h.sound.coherent.best_number hτ.1)
        fun hreach => ?_
      have hmem := (h.sound.coherent.populated_iff _ _ _ hτ.1.1).2 ⟨hτ.1.2, hreach⟩
      rw [hword.1, hword.2.1, h.populated_eq_nil hi] at hmem
      cases hmem
    have hle := h.bestAt_word_le hg hi hτ.1 fun hmem => hnot ⟨hword.2.2, hmem⟩
    rw [hblank] at hle
    calc _ ≤ ((s.chart.seed t.grammar (t.sentence.token? i) i).2.bestAt τ.slot).rank :=
          hextends.sound.coherent.score_le τ (hextends.grows.hasTarget.2 hτ)
      _ ≤ _ := hle
      _ ≤ _ := Score.negInf_rank_le _
  · exact Int.le_of_eq (congrArg Score.rank (hextends.frame τ hτ hword))

end

/-- The first words are seeded, and only the pending slots are left to be covered. -/
structure Sown (r : Reckoning) (Good : State → Prop) (t : Task) (chain words : Nat)
    (pending slots : List Slot) (s : State) : Prop
    extends Seeding t chain words pending slots s where
  good : Good s
  covered : Covered r t chain words (LowerOf pending) (· ∈ pending) s

section

variable (hd : Discipline r Good t b) (hg : t.grammar.WellFormed)

include hd hg

/-- A seeded word leaves the slots it populates to be covered. -/
theorem Sown.word {i : Nat} {slots : List Slot} (h : Sown r Good t b.maxChain i [] slots s)
    (hi : i < t.sentence.size) (work : Work) :
    Sown r Good t b.maxChain (i + 1)
      (wordSlots i (s.chart.seed t.grammar (t.sentence.token? i) i).1.toList) slots
      { s with chart := (s.chart.seed t.grammar (t.sentence.token? i) i).2, work } := by
  have hs := h.sound
  obtain ⟨hgood, hkeeps, hword⟩ := hd.word h.good h.toSeeding hi
    { s with chart := (s.chart.seed t.grammar (t.sentence.token? i) i).2, work } rfl rfl
  have hcarried : Covered r t b.maxChain i
      (LowerOf (wordSlots i (s.chart.seed t.grammar (t.sentence.token? i) i).1.toList))
      (· ∈ wordSlots i (s.chart.seed t.grammar (t.sentence.token? i) i).1.toList)
      { s with chart := (s.chart.seed t.grammar (t.sentence.token? i) i).2, work } := by
    refine h.covered.carry hs.attains hg (extends_seed hs hg hi).sound.isFor hkeeps ?_ ?_
    · exact fun τ hτ hnot => ⟨fun hpending => List.not_mem_nil hpending.2,
        r.noMore_of_le (hs.coherent.number τ hτ) (h.toSeeding.scoreAt_word_le hg hi hτ hnot)⟩
    · exact fun x hx hnot => ⟨List.not_mem_nil,
        r.noMore_of_le (hs.coherent.best_number hx) (h.toSeeding.bestAt_word_le hg hi hx hnot)⟩
  refine ⟨h.toSeeding.word hg hi work, hgood, fun id j hleaf hj => ?_, hcarried.unary,
    hcarried.binary⟩
  rcases Nat.lt_or_eq_of_le (Nat.le_of_lt_succ hj) with hbefore | rfl
  · exact hcarried.leaves id j hleaf hbefore
  · exact hword id hleaf

/-- A pending slot is covered by its expansion. -/
theorem Sown.slot {x : Slot} {pending slots : List Slot}
    (h : Sown r Good t b.maxChain words (x :: pending) slots s) :
    Sown r Good t b.maxChain words pending (slots ++ [x])
      (s.expand t ⟨x, 0⟩ ⟨true, true⟩) := by
  have htarget : s.chart.HasTarget ⟨x, 0⟩ := ⟨(h.fresh x List.mem_cons_self).1, Nat.zero_le _⟩
  refine ⟨h.toSeeding.slot hg, (hd.expand _ h.good h.regular htarget).1, ?_⟩
  refine (h.covered.expand hd hg h.good h.regular (fun _ hy => hy) htarget fun _ => rfl).mono ?_ ?_
  · exact fun _ => lowerOf_of_ne
  · rintro y ⟨hmem, hne⟩
    exact (List.mem_cons.1 hmem).resolve_left hne

theorem sown_words (hstart : Good (b.start t)) :
    ∃ slots, Sown r Good t b.maxChain t.sentence.size [] slots
      ((List.range t.sentence.size).foldl (fun s i => s.seedWord t i) (b.start t)) := by
  refine seed_induction (I := fun i s => ∃ slots, Sown r Good t b.maxChain i [] slots s)
    (J := fun i rest s => ∃ slots, Sown r Good t b.maxChain (i + 1) (wordSlots i rest) slots s)
    ?_ ?_ ?_ ⟨[], seeding_start b t, hstart, covered_start r b hg⟩ _ (Nat.le_refl _)
  · rintro i s hi ⟨slots, h⟩ work
    exact ⟨slots, h.word hd hg hi work⟩
  · rintro i nt rest s hi ⟨slots, h⟩
    exact ⟨_, h.slot hd hg⟩
  · rintro i s hi ⟨slots, h⟩
    exact ⟨slots, h⟩

/-- Once all words are seeded, nothing is left to be covered. -/
theorem onTrack_seed (hstart : Good (b.start t)) :
    OnTrack r Good t b.maxChain ((b.start t).seed t b.untilExhausted) := by
  obtain ⟨slots, h⟩ := sown_words hd hg hstart
  have hcovered : FullyCovered r t b.maxChain _ := h.covered.mono
    (fun _ hpending => List.not_mem_nil hpending.2) fun _ hmem => List.not_mem_nil hmem
  exact ⟨hd.congr h.good rfl rfl, fun _ => ⟨hcovered.leaves, hcovered.unary, hcovered.binary⟩⟩

end

end BestFirst
end BestParse
