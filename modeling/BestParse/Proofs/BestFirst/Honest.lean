import BestParse.Proofs.BestFirst.Coverage

/-!
# What waits in the queue

A state is *honest* when its chart is sound, every edge that waits is supported by a
derivation, and the queue keeps its promises.  Honest states are those of a search that goes
by scores: a commit never lowers one, and what a queue drops gives way to an edge that is as
good.  So coverage can be reckoned by scores (`Reckoning.scores`), and honesty is the
discipline that it needs (`honest_discipline`).

This holds for any figure of merit if the queue keeps every edge and the commit rule compares
scores.  Otherwise figures of merit must be scores.
-/

namespace BestParse
namespace BestFirst

open Chart

/-- The figure of merit of an edge is its score. -/
def RatesInside (t : Task) : Prop := ∀ (e : Edge) (c : Chart), t.merit.score e c = e.inside

theorem ratesInside_of_merit {t : Task} (h : t.merit = .inside) : RatesInside t := by
  intro e c
  rw [h]
  rfl

/-- Every layer records its score as its figure of merit. -/
def Rated (c : Chart) : Prop := ∀ τ, c.HasTarget τ → (c.layerAt τ).fom = c.scoreAt τ

/-- Chart and queue say nothing that is not so. -/
structure Honest (t : Task) (chain : Nat) (s : State) : Prop where
  sound : s.chart.Sound t chain
  supported : ∀ e ∈ s.queue.toList, e.Supported t chain
  sorted : s.queue.Sorted
  keeps : s.queue.Keeps s.chart
  trusts : ∀ (e : Edge) (c : Chart), s.queue.Trusts (e.withFom (t.merit.score e c))
  layer_fom : RatesInside t → Rated s.chart
  queue_fom : RatesInside t → ∀ e ∈ s.queue.toList, e.fom = e.inside

/-- A score is met when a score as good is stored or on its way. -/
def Reckoning.scores : Reckoning where
  Met := Meets
  NoMore x y := y ≠ .nan ∧ x.rank ≤ y.rank
  noMore_of_le hnum hle := ⟨hnum, hle⟩
  extend hlog hmore hx := by
    obtain ⟨x', hx', hle⟩ := Score.extend_mono hlog hmore.1 hmore.2 hx
    exact ⟨x', hx', fun _ _ _ hmeets => hmeets.mono hle⟩
  combine hlog hmorel hmorer hx := by
    obtain ⟨x', hx', hle⟩ := Score.combine_mono hlog hmorel.1 hmorer.1 hmorel.2 hmorer.2 hx
    exact ⟨x', hx', fun _ _ _ hmeets => hmeets.mono hle⟩

variable {t : Task} {chain : Nat} {s s' : State} {b : BestFirst} {e : Edge}

/-- The chart dominates the words that it is covered for. -/
theorem Covered.dominates_leaf {words : Nat} {lower : Target → Prop} {side : Slot → Prop}
    (h : Covered .scores t chain words lower side s) {id : ProductionId} {i : Nat}
    (hD : (Derivation.leaf id i).Obeys t chain) (hi : i < words) :
    s.chart.Dominates t (.leaf id i) := by
  intro x hx
  cases hx
  exact Meets.of_empty (h.leaves id i hD hi)

/-! ## Offering edges -/

theorem offered_meets (c : Chart) :
    ∀ (es : List Edge) {q : EdgeQueue}, q.Keeps c →
      (∀ (e : Edge) (c' : Chart), q.Trusts (e.withFom (t.merit.score e c'))) →
      (∀ e ∈ es, e.inside ≠ .nan ∧ c.HasTarget e.target) →
      (offered t c q es).Keeps c ∧
      (∀ (e : Edge) (c' : Chart), (offered t c q es).Trusts (e.withFom (t.merit.score e c'))) ∧
      (∀ τ x, Meets c q.toList τ x → Meets c (offered t c q es).toList τ x) ∧
      ∀ e ∈ es, Meets c (offered t c q es).toList e.target e.inside
  | [], q, hkeeps, htrusts, _ => ⟨hkeeps, htrusts, fun _ _ h => h, List.forall_mem_nil _⟩
  | e :: es, q, hkeeps, htrusts, hes => by
      obtain ⟨hnum, htarget⟩ := hes e List.mem_cons_self
      have htrust := htrusts e c
      obtain ⟨hkeeps', htrusts', hmeets', hmade⟩ := offered_meets c es
        (hkeeps.push htrust hnum) (fun f c' => EdgeQueue.trusts_push (htrusts f c'))
        fun f hf => hes f (List.mem_cons_of_mem e hf)
      refine ⟨hkeeps', htrusts', ?_, ?_⟩
      · intro τ x h
        exact hmeets' τ x (EdgeQueue.meets_push hkeeps htrust h)
      · intro f hf
        rcases List.mem_cons.1 hf with rfl | hrest
        · exact hmeets' _ _ (EdgeQueue.meets_push_self hkeeps htrust hnum htarget)
        · exact hmade f hrest

theorem sorted_offered (t : Task) (c : Chart) :
    ∀ (es : List Edge) {q : EdgeQueue}, q.Sorted → (offered t c q es).Sorted
  | [], _, h => h
  | _ :: es, _, h => sorted_offered t c es (h.push _)

/-- An expansion leaves an honest state and meets the edges it makes. -/
theorem Honest.expand (h : Honest t chain s) (hg : t.grammar.WellFormed) {pending : Slot → Prop}
    {slots : List Slot} (hregular : Regular t chain pending slots s) {target : Target}
    (htarget : s.chart.HasTarget target) (effect : Effect) :
    Honest t chain (s.expand t target effect) ∧
      Reckoning.scores.Keeps s (s.expand t target effect) ∧
      ∀ e ∈ candidates t s target effect,
        Meets s.chart (s.expand t target effect).queue.toList e.target e.inside := by
  have hmade : ∀ e ∈ candidates t s target effect, e.Supported t chain := fun e he =>
    supported_candidates h.sound.attains hg hregular htarget he
  obtain ⟨hkeeps, htrusts, hkept, hmet⟩ := offered_meets s.chart (candidates t s target effect)
    h.keeps h.trusts fun e he => ⟨inside_ne_nan_of_supported hg (hmade e he),
      h.sound.isFor.hasTarget_of_supported hg (hmade e he)⟩
  rw [← State.queue_expand] at hkeeps hkept hmet
  refine ⟨?_, ?_, hmet⟩
  · constructor
    · rw [State.chart_expand]
      exact h.sound
    · intro e he
      rw [State.queue_expand] at he
      rcases mem_offered _ he with hold | ⟨e', he', rfl⟩
      · exact h.supported e hold
      · have hsupported := hmade e' he'
        exact hsupported
    · rw [State.queue_expand]
      exact sorted_offered t s.chart _ h.sorted
    · rw [State.chart_expand]
      exact hkeeps
    · rw [State.queue_expand]
      exact htrusts
    · rw [State.chart_expand]
      exact h.layer_fom
    · intro hrates e he
      rw [State.queue_expand] at he
      rcases mem_offered _ he with hold | ⟨e', he', rfl⟩
      · exact h.queue_fom hrates e hold
      · exact hrates e' s.chart
  · constructor
    · rw [State.chart_expand]
      exact fun _ _ _ hheld => hheld
    · rw [State.chart_expand]
      exact fun τ x _ hmeets => hkept τ x hmeets

/-! ## Turns -/

theorem Rated.store {c : Chart} (h : Rated c) (hc : c.WellSized) {e : Edge}
    (he : c.HasTarget e.target) (hfom : e.fom = e.inside) : Rated (c.store t.grammar e) := by
  intro τ hτ
  rw [scoreAt, layerAt_store hc he hτ]
  split
  · exact hfom
  · exact h τ hτ

/-- The commit rule compares scores. -/
theorem accepts_eq (hrule : b.rule = .inside ∨ RatesInside t) (h : Honest t chain s)
    (he : e ∈ s.queue.toList) (htarget : s.chart.HasTarget e.target) :
    b.rule.accepts s.chart e = s.chart.accepts e := by
  cases hcase : b.rule with
  | inside => rfl
  | heuristic =>
      have hrates := hrule.resolve_left (by rw [hcase]; exact nofun)
      change e.fom.improves (s.chart.layerAt e.target).fom = _
      rw [h.queue_fom hrates e he, h.layer_fom hrates _ htarget]
      rfl

/-- The edge taken is held by the chart afterwards. -/
theorem Honest.pop (h : Honest t chain s) (htop : s.queue.toList.head? = some e)
    (hsound : s'.chart.Sound t chain) (hgrows : s.chart.Grows s'.chart)
    (hqueue : s'.queue = s.queue.pop.2) (hheld : e.inside.rank ≤ (s'.chart.scoreAt e.target).rank)
    (hrated : RatesInside t → Rated s'.chart) :
    Honest t chain s' ∧ Reckoning.scores.Keeps s s' := by
  have hwaited : ∀ f ∈ s'.queue.toList, f ∈ s.queue.toList := by
    intro f hf
    rw [hqueue, EdgeQueue.toList_pop] at hf
    exact List.mem_of_mem_tail hf
  refine ⟨⟨hsound, fun f hf => h.supported f (hwaited f hf), ?_, ?_, ?_, hrated,
    fun hrates f hf => h.queue_fom hrates f (hwaited f hf)⟩, ⟨?_, ?_⟩⟩
  · rw [hqueue]
    exact h.sorted.pop
  · rw [hqueue]
    exact h.keeps.pop hgrows htop hheld
  · rw [hqueue]
    exact fun f c => EdgeQueue.trusts_pop (h.trusts f c)
  · exact fun τ x hτ hmeets => Meets.grows hmeets hgrows hτ
  · intro τ x hτ hmeets
    obtain ⟨rest, hlist⟩ : ∃ rest, s.queue.toList = e :: rest := List.head?_eq_some_iff.1 htop
    rw [hlist] at hmeets
    rw [hqueue, EdgeQueue.toList_pop, hlist]
    exact Meets.taken hmeets hgrows hτ hheld

section

variable (h : Honest t chain s) (hg : t.grammar.WellFormed)
  (hrule : b.rule = .inside ∨ RatesInside t) (htop : s.queue.toList.head? = some e)

include h hg hrule htop

theorem Honest.improves_of_accepted (haccepted : b.rule.accepts s.chart e = true) :
    s.chart.HasTarget e.target ∧ s.chart.accepts e = true := by
  have he := List.mem_of_mem_head? htop
  have htarget := h.sound.isFor.hasTarget_of_supported hg (h.supported e he)
  rw [accepts_eq hrule h he htarget] at haccepted
  exact ⟨htarget, haccepted⟩

/-- An edge that is not accepted is no better than its layer. -/
theorem Honest.skip (hdeclined : b.rule.accepts s.chart e = false)
    (hchart : s'.chart = s.chart) (hqueue : s'.queue = s.queue.pop.2) :
    Honest t chain s' ∧ Reckoning.scores.Keeps s s' := by
  have he := List.mem_of_mem_head? htop
  have htarget := h.sound.isFor.hasTarget_of_supported hg (h.supported e he)
  rw [accepts_eq hrule h he htarget, ← hchart] at hdeclined
  refine h.pop htop (hchart ▸ h.sound) ?_ hqueue ?_ (hchart ▸ h.layer_fom)
  · rw [hchart]
    exact Grows.refl _
  · refine Score.rank_le_of_not_improves (inside_ne_nan_of_supported hg (h.supported e he))
      (hchart ▸ h.sound.coherent.number _ htarget) fun himproves => ?_
    cases himproves.symm.trans hdeclined

theorem Honest.commit (haccepted : b.rule.accepts s.chart e = true)
    (hchart : s'.chart = s.chart.store t.grammar e) (hqueue : s'.queue = s.queue.pop.2) :
    Honest t chain s' ∧ Reckoning.scores.Keeps s s' := by
  have he := List.mem_of_mem_head? htop
  obtain ⟨htarget, hacc⟩ := h.improves_of_accepted hg hrule htop haccepted
  refine h.pop htop ?_ ?_ hqueue ?_ ?_
  · rw [hchart]
    exact h.sound.store hg (h.supported e he) hacc
  · rw [hchart]
    exact h.sound.coherent.grows_store htarget hacc
  · rw [hchart, scoreAt_store h.sound.coherent.sized htarget htarget, if_pos rfl]
  · rw [hchart]
    intro hrates
    exact (h.layer_fom hrates).store h.sound.coherent.sized htarget (h.queue_fom hrates e he)

end

/-! ## Seeding -/

theorem rated_empty (g : Grammar) (size maxChain : Nat) : Rated (Chart.empty g size maxChain) := by
  intro τ _
  rw [scoreAt, layerAt_empty]

theorem Rated.seedAll {c : Chart} (h : Rated c) (hc : c.Sound t chain)
    (hg : t.grammar.WellFormed) {i : Nat} {ids : List ProductionId}
    (hsup : ∀ id ∈ ids, (Edge.lexical t.grammar id i).Supported t chain) :
    Rated (c.seedAll t.grammar i ids).2 := by
  refine (seedAll_induction (I := fun c => c.Sound t chain ∧ Rated c) ⟨hc, h⟩ ?_).2
  rintro c' id hid ⟨hsound, hrated⟩ hacc
  have htarget := hsound.isFor.hasTarget_of_supported hg (hsup id hid)
  exact ⟨hsound.store hg (hsup id hid) hacc, hrated.store hsound.coherent.sized htarget rfl⟩

theorem honest_start (b : BestFirst) (t : Task)
    (hkind : b.queue.kind = .stable ∨ RatesInside t) : Honest t b.maxChain (b.start t) := by
  have hqueue : (b.start t).queue.toList = [] := b.queue.toList_reset
  refine ⟨sound_empty t b.maxChain, ?_, ?_, b.queue.keeps_reset _, ?_,
    fun _ => rated_empty _ _ _, ?_⟩
  · rw [hqueue]
    exact List.forall_mem_nil _
  · rw [EdgeQueue.Sorted, hqueue]
    exact List.Pairwise.nil
  · intro f c
    change (EdgeQueue.empty b.queue.kind).Trusts _
    cases hcase : b.queue.kind with
    | stable => trivial
    | memo => exact hkind.resolve_left (by rw [hcase]; exact nofun) f c
  · rw [hqueue]
    exact fun _ => List.forall_mem_nil _

/-- A seeded word lowers no score. -/
theorem Honest.word (h : Honest t chain s) (hg : t.grammar.WellFormed) {i : Nat}
    (hi : i < t.sentence.size)
    (hchart : s'.chart = (s.chart.seed t.grammar (t.sentence.token? i) i).2)
    (hqueue : s'.queue = s.queue) :
    Honest t chain s' ∧ Reckoning.scores.Keeps s s' := by
  have hextends := extends_seed h.sound hg hi
  rw [← hchart] at hextends
  refine ⟨⟨hextends.sound, hqueue ▸ h.supported, hqueue ▸ h.sorted,
    hqueue ▸ h.keeps.grows hextends.grows, hqueue ▸ h.trusts, fun hrates => ?_,
    hqueue ▸ h.queue_fom⟩, ⟨?_, ?_⟩⟩
  · rw [hchart]
    exact (h.layer_fom hrates).seedAll h.sound hg fun _ hid =>
      supported_of_mem_lexicalWith hg hi hid
  · exact fun τ x hτ hmeets => Meets.grows hmeets hextends.grows hτ
  · rw [hqueue]
    exact fun τ x hτ hmeets => Meets.grows hmeets hextends.grows hτ

/-! ## Searches by scores -/

/-- Honesty keeps what is met by scores. -/
theorem honest_discipline (hg : t.grammar.WellFormed)
    (hrule : b.rule = .inside ∨ RatesInside t) :
    Discipline .scores (Honest t b.maxChain) t b where
  congr h hchart hqueue := ⟨hchart ▸ h.sound, hqueue ▸ h.supported, hqueue ▸ h.sorted,
    hchart ▸ hqueue ▸ h.keeps, hqueue ▸ h.trusts, hchart ▸ h.layer_fom, hqueue ▸ h.queue_fom⟩
  attains h := h.sound.attains
  populated h _ hx := (h.sound.coherent.isPopulated_iff hx).2
  layer h τ hτ := ⟨h.sound.coherent.number τ hτ, Int.le_refl _⟩
  slot h _ hx := ⟨h.sound.coherent.best_number hx, Int.le_refl _⟩
  expand effect h hregular htarget := h.expand hg hregular htarget effect
  skip h htop := h.skip hg hrule htop
  commit h htop := h.commit hg hrule htop
  word h _ hi _ hchart hqueue := by
    obtain ⟨hhonest, hkeeps⟩ := h.word hg hi hchart hqueue
    refine ⟨hhonest, hkeeps, fun id hleaf => Or.inl ?_⟩
    rw [hchart]
    exact seed_dominates h.sound hg hleaf _ rfl

/-- A search by scores is covered once all words are seeded. -/
theorem honest_seed (hg : t.grammar.WellFormed) (hrule : b.rule = .inside ∨ RatesInside t)
    (hkind : b.queue.kind = .stable ∨ RatesInside t) :
    OnTrack .scores (Honest t b.maxChain) t b.maxChain ((b.start t).seed t b.untilExhausted) :=
  onTrack_seed (honest_discipline hg hrule) hg (honest_start b t hkind)

end BestFirst
end BestParse
