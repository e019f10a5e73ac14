import BestParse.Proofs.SpanFirst.Keys

/-!
# What a visit leaves

Between two turns nothing waits, the words are seeded, what a unary production gives over the
current scores is stored, and every key says what it should (`Keyed`).  This holds whatever the
figure of merit and the bound on the edges that a visit admits; what it is that keys say is left
open here.

While the local queue is emptied, what a unary production gives is stored or waits
(`Closing`).  An edge that is dropped because enough binary edges were admitted does no harm:
it is not unary, and if it is still an improvement after the visit it counts for the new key.

The first edge of a visit is always admitted.  So every visit uses up room in the chart, and
the visits come to an end (`Keyed.next`, `parse_ends`).
-/

namespace BestParse
namespace SpanFirst

open Chart
open BestFirst (room unaryCandidates mem_unaryCandidates)

variable {t : Task} {chain : Nat} {c c' c₀ : Chart} {e : Edge} {s s' : State}

/-! ## Emptying the local queue -/

theorem unaryCandidates_congr {target : Target} (hchain : c'.maxChain = c.maxChain)
    (hscore : c'.scoreAt target = c.scoreAt target) :
    unaryCandidates t c' target = unaryCandidates t c target := by
  obtain ⟨⟨start, stop, symbol⟩, layer⟩ := target
  unfold unaryCandidates
  dsimp only
  rw [layerInside_eq, layerInside_eq, hchain, hscore]

theorem hasTarget_unaryCandidates (hc : c.Sound t chain) (hg : t.grammar.WellFormed) {τ : Target}
    (hτ : c.HasTarget τ) {u : Edge} (hu : u ∈ unaryCandidates t c τ) : c.HasTarget u.target :=
  hc.isFor.hasTarget_of_supported hg (BestFirst.supported_unaryCandidates hc.attains hg hτ hu)

/-- When scores change over some layers and the unary edges there are queued, those over the
other layers are as before. -/
theorem meets_unary (changed : Target → Prop) {es : List Edge} (hgrows : c.Grows c')
    (hsame : ∀ τ, c.HasTarget τ → ¬ changed τ → c'.scoreAt τ = c.scoreAt τ)
    (hnew : ∀ τ, changed τ → ∀ f ∈ State.ratedUnaries t c' τ, f ∈ es)
    (hold : ∀ τ, c.HasTarget τ → ∀ u ∈ unaryCandidates t c τ, Meets c' es u.target u.inside) :
    ∀ τ, c'.HasTarget τ → ∀ u ∈ unaryCandidates t c' τ, Meets c' es u.target u.inside := by
  intro τ hτ u hu
  have hτ' := hgrows.hasTarget.1 hτ
  by_cases hchanged : changed τ
  · exact Or.inr ⟨_, hnew τ hchanged _ (List.mem_map_of_mem hu), rfl, Int.le_refl _⟩
  · rw [unaryCandidates_congr hgrows.maxChain_eq (hsame τ hτ' hchanged)] at hu
    exact hold τ hτ' u hu

theorem span_ratedUnaries (hg : t.grammar.WellFormed) {target : Target}
    (he : e ∈ State.ratedUnaries t c target) :
    (e.start, e.stop) = (target.slot.start, target.slot.stop) := by
  obtain ⟨u, hu, rfl⟩ := List.mem_map.1 he
  obtain ⟨-, -, id, x, -, -, -, -, rfl⟩ := (mem_unaryCandidates hg).1 hu
  rfl

/-- The local queue is being emptied: since it began, the chart has changed over one span
only, and what a unary production gives is stored or waits. -/
structure Closing (t : Task) (span : Nat × Nat) (c₀ : Chart) (s : State) : Prop where
  grows : c₀.Grows s.chart
  within : Within span c₀ s.chart
  inSpan : ∀ f ∈ s.waiting.entries, (f.start, f.stop) = span
  unary : ∀ τ, s.chart.HasTarget τ → ∀ u ∈ unaryCandidates t s.chart τ,
    Meets s.chart s.waiting.entries u.target u.inside

namespace Closing

variable {span : Nat × Nat}

section

variable (h : Closing t span c₀ s) (hs : Orderly t chain s) (hg : t.grammar.WellFormed)
  (hhead : s.waiting.entries.head? = some e)

include h hs hg hhead

/-- An edge is dropped. -/
theorem skip (hdeclined : e.kind = .binary ∨ s.chart.accepts e = false)
    (hchart : s'.chart = s.chart) (hwaiting : s'.waiting.entries = s.waiting.entries.tail) :
    Closing t span c₀ s' := by
  obtain ⟨rest, hlist⟩ := List.head?_eq_some_iff.1 hhead
  refine ⟨hchart ▸ h.grows, hchart ▸ h.within, fun f hf => ?_, ?_⟩
  · rw [hwaiting] at hf
    exact h.inSpan f (List.mem_of_mem_tail hf)
  · rw [hchart, hwaiting, hlist, List.tail_cons]
    intro τ hτ u hu
    have hmeets := h.unary τ hτ u hu
    rw [hlist] at hmeets
    rcases hdeclined with hbinary | hdeclined
    · -- A binary edge is not what a unary production waits for.
      have hzero := (hs.course.licensed hg (List.mem_of_mem_head? hhead)).layer_eq_zero hbinary
      obtain ⟨-, -, id, x, -, -, -, -, rfl⟩ := (mem_unaryCandidates hg).1 hu
      rcases hmeets with hstored | ⟨f, hf, hftarget, hle⟩
      · exact Or.inl hstored
      · rcases List.mem_cons.1 hf with rfl | hrest
        · have hsucc : f.layer = τ.layer + 1 := congrArg Target.layer hftarget
          omega
        · exact Or.inr ⟨f, hrest, hftarget, hle⟩
    · refine hmeets.taken (Grows.refl _) (hasTarget_unaryCandidates (hs.sound hg) hg hτ hu) ?_
      refine rank_le_of_declined (hs.sound hg) hg
        (hs.course.supported hg (List.mem_of_mem_head? hhead)) ?_
      rw [hdeclined]
      exact nofun

/-- An edge is committed, and the unary edges over it are queued. -/
theorem commit {before : State}
    (hqueues : State.Queues t before (State.ratedUnaries t before.chart e.target) s')
    (hacc : s.chart.accepts e = true) (hchart : before.chart = s.chart.store t.grammar e)
    (hwaiting : before.waiting.entries = s.waiting.entries.tail) : Closing t span c₀ s' := by
  obtain ⟨rest, hlist⟩ := List.head?_eq_some_iff.1 hhead
  have hspan := h.inSpan e (List.mem_of_mem_head? hhead)
  have htarget := hs.hasTarget_head hg hhead
  have hsized := (hs.sound hg).coherent.sized
  have hgrows := (hs.sound hg).coherent.grows_store htarget hacc
  have hchart' := hqueues.chart_eq.trans hchart
  have hmem : ∀ f, f ∈ s'.waiting.entries ↔
      f ∈ rest ∨ f ∈ State.ratedUnaries t (s.chart.store t.grammar e) e.target := fun f => by
    rw [hqueues.waiting_eq, mem_enqueue, hwaiting, hlist, hchart, List.tail_cons]
  refine ⟨?_, ?_, fun f hf => ?_, ?_⟩
  · rw [hchart']
    exact h.grows.trans hgrows
  · rw [hchart']
    exact h.within.store h.grows hsized htarget hspan
  · rcases (hmem f).1 hf with hold | hnew
    · exact h.inSpan f (hlist ▸ List.mem_cons_of_mem e hold)
    · exact (span_ratedUnaries hg hnew).trans hspan
  · rw [hchart']
    refine meets_unary (· = e.target) hgrows (fun τ hτ hne => ?_) ?_
      fun τ hτ u hu => ?_
    · rw [scoreAt_store hsized htarget hτ, if_neg hne]
    · rintro τ rfl f hf
      exact (hmem f).2 (Or.inr hf)
    · have hmeets := h.unary τ hτ u hu
      rw [hlist] at hmeets
      have htaken := hmeets.taken hgrows (hasTarget_unaryCandidates (hs.sound hg) hg hτ hu)
        (by rw [scoreAt_store hsized htarget htarget, if_pos rfl])
      refine htaken.imp_right ?_
      rintro ⟨f, hf, hfrest⟩
      exact ⟨f, (hmem f).2 (Or.inl hf), hfrest⟩

theorem admits (hadmits : State.Admits t s e s') : Closing t span c₀ s' := by
  cases hadmits with
  | skip declined chart_eq keys_eq waiting_eq faulty_eq =>
      exact h.skip hs hg hhead declined chart_eq waiting_eq
  | commit before queues accepted chart_eq keys_eq waiting_eq faulty_eq =>
      exact h.commit hs hg hhead queues accepted chart_eq waiting_eq

end

end Closing

/-! ## Closed states -/

/-- Nothing waits, the first words are seeded, and what a unary production gives over the
current scores is stored. -/
structure Closed (t : Task) (chain words : Nat) (s : State) : Prop extends Orderly t chain s where
  idle : s.waiting.entries = []
  leaves : ∀ id i, (Derivation.leaf id i).Obeys t chain → i < words →
    s.chart.Dominates t (.leaf id i)
  unary : ∀ τ, s.chart.HasTarget τ → ∀ u ∈ unaryCandidates t s.chart τ,
    u.inside.rank ≤ (s.chart.scoreAt u.target).rank

variable {n : Nat} {span : Nat × Nat}

/-- The state is closed once the local queue is empty.  Keys are left alone. -/
theorem Closing.drain (h : Closing t span c₀ s) (hs : Orderly t chain s)
    (hg : t.grammar.WellFormed) (maxLocal : Nat) (hc : c₀.Sound t chain)
    (hleaves : ∀ id i, (Derivation.leaf id i).Obeys t chain → i < n →
      c₀.Dominates t (.leaf id i)) :
    Closed t chain n (s.drain t maxLocal) ∧ Within span c₀ (s.drain t maxLocal).chart ∧
      (s.drain t maxLocal).keys = s.keys := by
  obtain ⟨hordered, ⟨hclosing, hkeys⟩, hidle⟩ := drain_induction hg maxLocal
    (I := fun s' => Closing t span c₀ s' ∧ s'.keys = s.keys)
    (fun s' e s'' hs' hI hhead hadmits =>
      ⟨hI.1.admits hs' hg hhead hadmits, hadmits.keys.trans hI.2⟩) hs ⟨h, rfl⟩
  refine ⟨⟨hordered, hidle, fun id i hleaf hi => ?_, fun τ hτ u hu => ?_⟩,
    hclosing.within, hkeys⟩
  · exact dominates_of_grows hclosing.grows hc.isFor hg hleaf (hleaves id i hleaf hi)
  · have hmeets := hclosing.unary τ hτ u hu
    rw [hidle] at hmeets
    exact hmeets.of_empty

namespace Closed

theorem start (hg : t.grammar.WellFormed) :
    Closed t chain 0 { chart := Chart.empty t.grammar t.sentence.size chain } where
  toOrderly := Orderly.start t chain
  idle := rfl
  leaves _ i _ hi := absurd hi (Nat.not_lt_zero i)
  unary τ _ u hu := absurd hu (BestFirst.not_mem_unaryCandidates_empty hg _ _ τ u)

theorem rekeyAll (h : Closed t chain n s) {spans : List (Nat × Nat)}
    (hspans : ∀ span ∈ spans, Wide t span) : Closed t chain n (s.rekeyAll t spans) := by
  obtain ⟨hchart, hwaiting, -, -⟩ := State.rekeyAll_eq t spans s
  exact ⟨h.toOrderly.rekeyAll hspans, by rw [hwaiting]; exact h.idle, hchart ▸ h.leaves,
    hchart ▸ h.unary⟩

/-! ## Seeding -/

/-- Only the layers answered by the seeding of a word have other scores afterwards. -/
theorem scoreAt_seed {i : Nat} (hc : c.Sound t chain) (hg : t.grammar.WellFormed)
    (hi : i < t.sentence.size) {τ : Target} (hτ : c.HasTarget τ)
    (hnot : τ ∉ wordTargets i (c.seed t.grammar (t.sentence.token? i) i).1.toList) :
    (c.seed t.grammar (t.sentence.token? i) i).2.scoreAt τ = c.scoreAt τ := by
  rw [seed_eq] at hnot ⊢
  refine scoreAt_seedAll hc hg (fun _ hid => supported_of_mem_lexicalWith hg hi hid) hτ ?_
  rintro ⟨hstart, hstop, hlayer⟩ hmem
  refine hnot (List.mem_map.2 ⟨_, hmem, ?_⟩)
  rw [← hstop, ← hstart, ← hlayer]

/-- While the unary edges over the seeds of a word wait, the others are stored. -/
theorem closing_sow (h : Closed t chain n s) (hg : t.grammar.WellFormed) {i : Nat}
    (hi : i < t.sentence.size) :
    Closing t (i, i + 1) (s.chart.seed t.grammar (t.sentence.token? i) i).2 (s.sow t i) := by
  obtain ⟨before, hchart, -, hwaiting, -, hqueues⟩ := s.sow_eq t i
  have hsound := h.toOrderly.sound hg
  have hextends := extends_seed hsound hg hi
  rw [← hchart] at hextends ⊢
  have hmem : ∀ f, f ∈ (s.sow t i).waiting.entries ↔
      ∃ τ ∈ wordTargets i (s.chart.seed t.grammar (t.sentence.token? i) i).1.toList,
        f ∈ State.ratedUnaries t before.chart τ := by
    intro f
    rw [hqueues.waiting_eq, mem_enqueue, hwaiting, h.idle, List.mem_flatMap]
    exact or_iff_right List.not_mem_nil
  refine ⟨?_, ?_, fun f hf => ?_, ?_⟩
  · rw [hqueues.chart_eq]
    exact Grows.refl _
  · rw [hqueues.chart_eq]
    exact Within.refl _ _
  · obtain ⟨τ, hτ, hf⟩ := (hmem f).1 hf
    obtain ⟨nt, -, rfl⟩ := List.mem_map.1 hτ
    exact span_ratedUnaries hg hf
  · rw [hqueues.chart_eq]
    refine meets_unary
      (· ∈ wordTargets i (s.chart.seed t.grammar (t.sentence.token? i) i).1.toList)
      hextends.grows (fun τ hτ hnot => ?_) (fun τ hτ f hf => (hmem f).2 ⟨τ, hτ, hf⟩)
      fun τ hτ u hu => ?_
    · rw [hchart]
      exact scoreAt_seed hsound hg hi hτ hnot
    · exact Or.inl (Int.le_trans (h.unary τ hτ u hu)
        (hextends.grows.score_le _ (hasTarget_unaryCandidates hsound hg hτ hu)))

theorem seedWord {i : Nat} (h : Closed t chain i s) (hg : t.grammar.WellFormed)
    (maxLocal : Nat) (hi : i < t.sentence.size) :
    Closed t chain (i + 1) (s.seedWord t maxLocal i) := by
  have hsound := h.toOrderly.sound hg
  have hextends := extends_seed hsound hg hi
  rw [State.seedWord_eq]
  refine ((h.closing_sow hg hi).drain (h.toOrderly.sow hg hi) hg maxLocal hextends.sound ?_).1
  intro id j hleaf hj
  rcases Nat.lt_or_eq_of_le (Nat.le_of_lt_succ hj) with hbefore | rfl
  · exact hextends.dominates hsound hg hleaf (h.leaves id j hleaf hbefore)
  · exact seed_dominates hsound hg hleaf

theorem words (hg : t.grammar.WellFormed) (maxLocal : Nat) (h : Closed t chain 0 s) :
    ∀ n ≤ t.sentence.size,
      Closed t chain n ((List.range n).foldl (fun s i => s.seedWord t maxLocal i) s) :=
  Loop.foldl_range (fun _ _ hi hs => hs.seedWord hg maxLocal hi) h

end Closed

/-! ## Keyed states -/

/-- A closed state with all words seeded, in which every key says what it should. -/
structure Keyed (t : Task) (chain : Nat) (meaning : Chart → Nat × Nat → Option Score → Prop)
    (s : State) : Prop extends Closed t chain t.sentence.size s where
  keys : ∀ k, Wide t k → meaning s.chart k s.keys[k]?

variable {meaning : Chart → Nat × Nat → Option Score → Prop}

theorem keyed_seeded (hg : t.grammar.WellFormed) (p : SpanFirst)
    (hrule : KeyRule t p.maxChain meaning) : Keyed t p.maxChain meaning (seeded p t) := by
  have hstart : Closed t p.maxChain 0 _ := Closed.start hg
  have hwords := hstart.words hg p.maxLocal _ (Nat.le_refl _)
  unfold seeded State.seed
  dsimp only
  rw [State.propagateAll_eq, (hwords.toOrderly.sound hg).isFor.size_eq]
  refine ⟨hwords.rekeyAll fun span => mem_wordParents.1, fun k hwide => ?_⟩
  obtain ⟨hchart, -, -, hkeys⟩ := State.rekeyAll_eq t _ _
  rw [hkeys, hchart, if_pos (mem_wordParents.2 hwide)]
  exact hrule.anew _ k (hwords.toOrderly.sound hg) hwide

namespace Keyed

/-- While the edges collected by a visit wait, the unary edges are stored. -/
theorem closing_gather (h : Keyed t chain meaning s) (hg : t.grammar.WellFormed) (k : Nat × Nat)
    (fom : Score) : Closing t k s.chart ((s.take k fom).gather t k.1 k.2) := by
  obtain ⟨hchart, -, -, hwaiting⟩ := (s.take k fom).gather_eq t k.1 k.2
  refine ⟨?_, ?_, fun f hf => ?_, ?_⟩
  · rw [hchart]
    exact Grows.refl _
  · rw [hchart]
    exact Within.refl _ _
  · rw [hwaiting, mem_enqueue] at hf
    have hidle : f ∉ (s.take k fom).waiting.entries := h.idle ▸ List.not_mem_nil
    obtain ⟨e, he, rfl⟩ := mem_collected (hf.resolve_left hidle)
    obtain ⟨id, l, r, mid, x, -, -, rfl⟩ := joins_of_mem_binaryEdges hg (mem_improvingEdges.1 he).1
    rfl
  · rw [hchart]
    exact fun τ hτ u hu => Or.inl (h.unary τ hτ u hu)

/-- The first edge of a visit is an improving edge over the span, if there is one. -/
theorem head_gather (h : Keyed t chain meaning s) {k : Nat × Nat} (fom : Score)
    (he : e ∈ improvingEdges t s.chart k.1 k.2) :
    ∃ f ∈ improvingEdges t s.chart k.1 k.2,
      ((s.take k fom).gather t k.1 k.2).waiting.entries.head? = some (rate t s.chart f) := by
  have hmem : ∀ f, f ∈ ((s.take k fom).gather t k.1 k.2).waiting.entries ↔
      f ∈ collected t s.chart k.1 k.2 := fun f => by
    have hidle : f ∉ (s.take k fom).waiting.entries := h.idle ▸ List.not_mem_nil
    rw [((s.take k fom).gather_eq t k.1 k.2).2.2.2, mem_enqueue]
    exact or_iff_right hidle
  obtain ⟨f, hf⟩ := List.exists_mem_of_ne_nil _ (collected_ne_nil he)
  obtain ⟨first, rest, hlist⟩ := List.exists_cons_of_ne_nil (List.ne_nil_of_mem ((hmem f).2 hf))
  obtain ⟨g, hgmem, rfl⟩ := mem_collected ((hmem first).1 (hlist ▸ List.mem_cons_self))
  exact ⟨g, hgmem, by rw [hlist, List.head?_cons]⟩

/-- A visit closes the state again, changes the chart over its span only and uses up room. -/
theorem visit (h : Keyed t chain meaning s) (hg : t.grammar.WellFormed)
    (hrule : KeyRule t chain meaning) {k : Nat × Nat} {fom : Score} (hkey : s.keys[k]? = some fom)
    (maxLocal : Nat) :
    Closed t chain t.sentence.size ((s.take k fom).visit t maxLocal k.1 k.2) ∧
      Within k s.chart ((s.take k fom).visit t maxLocal k.1 k.2).chart ∧
      ((s.take k fom).visit t maxLocal k.1 k.2).keys = s.keys.erase k ∧
      room .inside ((s.take k fom).visit t maxLocal k.1 k.2).chart < room .inside s.chart := by
  obtain ⟨hwide, hopen⟩ := h.toOrderly.wide k fom hkey
  have hmeaning := h.keys k hwide
  rw [hkey] at hmeaning
  obtain ⟨e, he⟩ := hrule.edge _ k fom hmeaning
  obtain ⟨f, hf, hhead⟩ := h.head_gather fom he
  obtain ⟨hchart, hkeys, -, -⟩ := (s.take k fom).gather_eq t k.1 k.2
  have hgathered := (h.toOrderly.take k fom).gather hg hwide hopen
  obtain ⟨hclosed, hwithin, hkept⟩ := (h.closing_gather hg k fom).drain hgathered
    hg maxLocal (h.toOrderly.sound hg) h.leaves
  have hroom := hgathered.room_drain_lt hg maxLocal hhead (by
    rw [hchart]
    exact (mem_improvingEdges.1 hf).2)
  rw [hchart] at hroom
  exact ⟨hclosed, hwithin, hkept.trans hkeys, hroom⟩

/-- After a visit it is enough to compute the keys of its span and of the parents anew. -/
theorem rekey (h : Keyed t chain meaning s) (hg : t.grammar.WellFormed)
    (hrule : KeyRule t chain meaning) {k : Nat × Nat} (hwide : Wide t k)
    (hclosed : Closed t chain t.sentence.size s') (hwithin : Within k s.chart s'.chart)
    (hkeys : s'.keys = s.keys.erase k) :
    Keyed t chain meaning (s'.rekeyAll t (k :: parents t.sentence.size k.1 k.2)) := by
  obtain ⟨hchart, -, -, hrekeyed⟩ :=
    State.rekeyAll_eq t (k :: parents t.sentence.size k.1 k.2) s'
  refine ⟨hclosed.rekeyAll (List.forall_mem_cons.2 ⟨hwide, fun _ =>
    wide_of_mem_parents hwide.isSpan⟩), fun k' hwide' => ?_⟩
  rw [hrekeyed, hchart]
  split
  · exact hrule.anew _ k' (hclosed.toOrderly.sound hg) hwide'
  · -- The key of a span that is left out was right before, and its edges are the same.
    next hnot =>
    obtain ⟨hne, hnot⟩ := not_or.1 (mt List.mem_cons.2 hnot)
    rw [hkeys, Std.TreeMap.getElem?_erase, if_neg fun heq =>
      hne (Std.LawfulEqCmp.compare_eq_iff_eq.1 heq).symm]
    exact hrule.congr _ _ k' _ (h.keys k' hwide')
      (hwithin.improvingEdges_eq (h.toOrderly.sound hg) hg hwide' hnot hne)

/-- A turn leaves a keyed state and uses up room. -/
theorem next {p : SpanFirst} (h : Keyed t chain meaning s) (hg : t.grammar.WellFormed)
    (hrule : KeyRule t chain meaning) (hstep : p.step t s = .next s') :
    Keyed t chain meaning s' ∧ room .inside s'.chart < room .inside s.chart := by
  obtain ⟨k, fom, htop, rfl⟩ := step_next hstep
  have hkey := (State.top?_eq_some htop).1
  obtain ⟨hclosed, hwithin, hkept, hroom⟩ := h.visit hg hrule hkey p.maxLocal
  rw [(hclosed.toOrderly.sound hg).isFor.size_eq]
  refine ⟨h.rekey hg hrule (h.toOrderly.wide k fom hkey).1 hclosed hwithin hkept, ?_⟩
  rw [(State.rekeyAll_eq t _ _).1]
  exact hroom

end Keyed

/-- Without a bound on the visits, a search ends in a keyed state in which it is settled or no
span has a key, and another invariant of its turns holds there too. -/
theorem parse_ends {p : SpanFirst} (hg : t.grammar.WellFormed)
    (hrule : KeyRule t p.maxChain meaning) (hvisits : p.maxVisits = 0) {I : State → Prop}
    (hseed : I (seeded p t))
    (hnext : ∀ s s', Keyed t p.maxChain meaning s → I s → p.step t s = .next s' → I s') :
    ∃ s, Keyed t p.maxChain meaning s ∧ I s ∧ (s.isSettled t = true ∨ s.top? = none) ∧
      (p.parse t).chart = s.chart ∧ (p.parse t).outcome = s.chart.outcome t.grammar ∧
      (p.parse t).faulty = s.faulty := by
  obtain ⟨s, ⟨hkeyed, hI⟩, hhalt⟩ := (runs p t).halts
    (I := fun s => Keyed t p.maxChain meaning s ∧ I s) (fun s => room .inside s.chart)
    (fun s s' hs hstep => ⟨⟨(hs.1.next hg hrule hstep).1, hnext s s' hs.1 hs.2 hstep⟩,
      (hs.1.next hg hrule hstep).2⟩)
    (turns (seeded p t).chart) _ ⟨keyed_seeded hg p hrule, hseed⟩
    (Nat.lt_succ_of_le (room_le_numLayers _))
  generalize hlast : p.run t (turns (seeded p t).chart) (seeded p t) = last at hhalt
  obtain ⟨hchart, hfaulty, hover⟩ := step_halt hhalt
  obtain ⟨hchart', hfaulty', houtcome⟩ := parse_eq p t hlast
  exact ⟨s, hkeyed, hI, hover hvisits, hchart'.trans hchart, hchart ▸ houtcome,
    hfaulty'.trans hfaulty⟩

end SpanFirst
end BestParse
