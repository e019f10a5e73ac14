import Mathlib.Algebra.Group.Action.Defs
import Mathlib.Algebra.Order.BigOperators.Group.List
import Mathlib.Algebra.Order.Ring.Nat
import BestParse.Proofs.Score.Count
import BestParse.Proofs.BestFirst.Steps

/-!
# Best-first search ends

Every commit raises the value that the commit rule compares in some layer, and a value
goes up less than `2 ^ 32` times.  Every commit makes at most `candidateCount` edges.  So
the edges that wait, plus that many for every time a layer can still go up, is a measure
that each turn lowers (`steady_next`), and the turns allotted to a search are more than its
value after seeding (`search_halts`).

None of this depends on the figure of merit, the commit rule or the queue.  What it needs
of a state is `Regular`: the chart is in shape, the frontier tracks the populated slots,
each once, and the edges that wait aim at targets of the chart.
-/

namespace BestParse

/-- What the rule compares in a layer. -/
def CommitRule.value : CommitRule → Layer → Score
  | .inside, layer => layer.inside
  | .heuristic, layer => layer.fom

namespace BestFirst

open Chart

/-! ## Room for improvement -/

/-- How often the layers of a chart can still go up. -/
def room (rule : CommitRule) (c : Chart) : Nat :=
  (c.layers.toList.map fun layer => 2 ^ 32 - 1 - (rule.value layer).ordinal).sum

theorem sum_map_set_lt {α : Type} {f : α → Nat} :
    ∀ (list : List α) (i : Nat) (old new : α), list[i]? = some old → f new < f old →
      ((list.set i new).map f).sum < (list.map f).sum
  | [], _, _, _, hget, _ => by cases hget
  | a :: list, 0, old, new, hget, hlt => by
      cases hget
      simp only [List.set_cons_zero, List.map_cons, List.sum_cons]
      omega
  | a :: list, i + 1, old, new, hget, hlt => by
      have ih := sum_map_set_lt list i old new hget hlt
      simp only [List.set_cons_succ, List.map_cons, List.sum_cons]
      omega

theorem room_le (rule : CommitRule) (c : Chart) : room rule c ≤ c.layers.size * (2 ^ 32 - 1) := by
  have hle := List.sum_le_card_nsmul (c.layers.toList.map fun layer =>
    2 ^ 32 - 1 - (rule.value layer).ordinal) (2 ^ 32 - 1) (by
      intro k hk
      obtain ⟨layer, -, rfl⟩ := List.mem_map.1 hk
      exact Nat.sub_le _ _)
  rw [List.length_map, Array.length_toList, smul_eq_mul] at hle
  exact hle

/-- An accepted edge uses up room. -/
theorem room_store_lt {rule : CommitRule} {c : Chart} {e : Edge} {g : Grammar} (h : c.WellSized)
    (he : c.HasTarget e.target) (hacc : rule.accepts c e = true) :
    room rule (c.store g e) < room rule c := by
  have hplace : c.layerIndex e.start e.stop e.parent e.layer < c.layers.size := by
    rw [h.layers_size]
    exact Address.layer_lt (Address.slot_lt he.1.1 he.1.2) (Nat.lt_succ_of_le he.2)
  have hget : c.layers.toList[c.layerIndex e.start e.stop e.parent e.layer]? =
      some (c.layerAt e.target) := by
    change _ = some (c.layers.getD (c.layerIndex e.start e.stop e.parent e.layer) {})
    rw [Array.getElem?_toList, Array.getD_eq_getD_getElem?, Array.getElem?_eq_getElem hplace]
    rfl
  have himproves : (rule.value ⟨e.inside, e.fom, some e⟩).improves
      (rule.value (c.layerAt e.target)) = true := by
    cases rule with
    | inside => exact hacc
    | heuristic => exact hacc
  have hlt := Score.ordinal_lt_of_improves himproves
  have hbound := (rule.value ⟨e.inside, e.fom, some e⟩).ordinal_lt
  unfold room
  change ((c.layers.setIfInBounds _ _).toList.map _).sum < _
  rw [Array.toList_setIfInBounds]
  refine sum_map_set_lt _ _ _ _ hget ?_
  omega

/-! ## Counts -/

/-- How many layers the chart of a task has. -/
def layerCount (t : Task) (chain : Nat) : Nat :=
  Address.cells t.sentence.size * t.grammar.numNonterminals * (chain + 1)

/-- More edges than an expansion makes. -/
def candidateCount (t : Task) (chain : Nat) : Nat :=
  t.grammar.numProductions * (4 * layerCount t chain + 2 * t.sentence.size + 1)

theorem turns_eq (t : Task) (chain : Nat) :
    turns t chain = layerCount t chain * 2 ^ 32 * candidateCount t chain + 1 := rfl

/-- A list of slots that names none twice is no longer than the chart has slots. -/
theorem length_slots_le {c : Chart} {slots : List Slot} (hnodup : slots.Nodup)
    (hslots : ∀ x ∈ slots, c.HasSlot x) : slots.length ≤ Address.cells c.size * c.symbols := by
  have hindex : (slots.map fun x => c.slotIndex x.start x.stop x.symbol).Nodup := by
    refine List.Nodup.map_on ?_ hnodup
    intro x hx y hy heq
    exact slotIndex_inj (hslots x hx) (hslots y hy) heq
  have hsub : (slots.map fun x => c.slotIndex x.start x.stop x.symbol) ⊆
      List.range (Address.cells c.size * c.symbols) := by
    intro i hi
    obtain ⟨x, hx, rfl⟩ := List.mem_map.1 hi
    rw [List.mem_range]
    exact Address.slot_lt (hslots x hx).1 (hslots x hx).2
  have hle := (List.subperm_of_subset hindex hsub).length_le
  rw [List.length_map, List.length_range] at hle
  exact hle

theorem length_unaryCandidates_le {t : Task} (hg : t.grammar.WellFormed) (c : Chart)
    (target : Target) : (unaryCandidates t c target).length ≤ t.grammar.numProductions := by
  unfold unaryCandidates
  dsimp only
  split
  · exact Nat.le_trans (List.length_filterMap_le _ _)
      (hg.length_find_le (.child target.slot.symbol))
  · exact Nat.zero_le _

theorem size_offered_le (t : Task) (c : Chart) :
    ∀ (es : List Edge) (q : EdgeQueue), (offered t c q es).size ≤ q.size + es.length
  | [], q => Nat.le_refl _
  | e :: es, q => by
      have hfirst := q.size_push_le (e.withFom (t.merit.score e c))
      have hrest := size_offered_le t c es (q.push (e.withFom (t.merit.score e c))).2
      rw [List.length_cons]
      refine Nat.le_trans hrest ?_
      omega

theorem mem_offered {t : Task} {c : Chart} {f : Edge} :
    ∀ (es : List Edge) {q : EdgeQueue}, f ∈ (offered t c q es).toList →
      f ∈ q.toList ∨ ∃ e ∈ es, f = e.withFom (t.merit.score e c)
  | [], q, hf => Or.inl hf
  | e :: es, q, hf => by
      rcases mem_offered es hf with hpushed | ⟨e', he', rfl⟩
      · rcases EdgeQueue.mem_push hpushed with rfl | hold
        · exact Or.inr ⟨e, List.mem_cons_self, rfl⟩
        · exact Or.inl hold
      · exact Or.inr ⟨e', List.mem_cons_of_mem e he', rfl⟩

/-! ## Regular states -/

/-- A task whose search may be faulty: the split points of some open span do not fit, or
the figure of merit does not cover some edge. -/
def Faults (t : Task) : Prop :=
  (∃ start stop, start + 2 ≤ stop ∧ stop ≤ t.sentence.size ∧
    t.limits.isOpen start stop = true ∧ t.limits.splitsFit start stop = false) ∨
  ∃ e, t.merit.covers e = false

/-- The frontier tracks the populated slots, but for some that are pending, and chart and
queue are in order. -/
structure Regular (t : Task) (chain : Nat) (pending : Slot → Prop) (slots : List Slot)
    (s : State) : Prop where
  isFor : s.chart.IsFor t chain
  shaped : s.chart.Shaped
  tracks : s.frontier.Tracks t.grammar t.sentence.size slots
  nodup : slots.Nodup
  hasSlot : ∀ x ∈ slots, s.chart.HasSlot x
  populated : ∀ x ∈ slots, s.chart.isPopulated x.start x.stop x.symbol = true
  tracked : ∀ x, s.chart.HasSlot x → s.chart.isPopulated x.start x.stop x.symbol = true →
    x ∈ slots ∨ pending x
  queued : ∀ e ∈ s.queue.toList, s.chart.HasTarget e.target
  fault : s.faulty = true → Faults t

variable {t : Task} {chain : Nat} {pending : Slot → Prop} {slots : List Slot} {s : State}

namespace Regular

theorem mono {pending' : Slot → Prop} (h : Regular t chain pending slots s)
    (hsub : ∀ x, pending x → pending' x) : Regular t chain pending' slots s :=
  { h with tracked := fun x hx hpop => (h.tracked x hx hpop).imp_right (hsub x) }

theorem isSpan (h : Regular t chain pending slots s) {x : Slot} (hx : s.chart.HasSlot x) :
    IsSpan t.sentence.size x.start x.stop := by
  rw [← h.isFor.size_eq]
  exact hx.1

theorem length_slots_le (h : Regular t chain pending slots s) :
    slots.length ≤ layerCount t chain := by
  have hle := BestFirst.length_slots_le h.nodup h.hasSlot
  rw [h.isFor.size_eq, h.isFor.symbols_eq] at hle
  exact Nat.le_trans hle (Nat.le_mul_of_pos_right _ (Nat.succ_pos chain))

theorem inside_of_mem_reach (h : Regular t chain pending slots s) (hg : t.grammar.WellFormed)
    {target : Target} (htarget : s.chart.HasTarget target) {effect : Effect} {p : Place}
    (hp : p ∈ reach t s target effect) : p.Inside t.grammar t.sentence.size := by
  unfold reach at hp
  split at hp
  · rw [h.isFor.size_eq] at hp
    exact Frontier.inside_of_mem_places hg h.tracks (fun y hy => h.isSpan (h.hasSlot y hy))
      (h.isSpan htarget.1) hp
  · cases hp

theorem length_candidates_le (h : Regular t chain pending slots s) (hg : t.grammar.WellFormed)
    {target : Target} (htarget : s.chart.HasTarget target) (effect : Effect) :
    (candidates t s target effect).length ≤ candidateCount t chain := by
  have hunary := length_unaryCandidates_le hg s.chart target
  have hreach : (reach t s target effect).length ≤
      2 * (t.sentence.size + slots.length) * t.grammar.numProductions := by
    unfold reach
    split
    · rw [h.isFor.size_eq]
      exact Frontier.length_places_le hg h.tracks (h.isSpan htarget.1)
    · exact Nat.zero_le _
  have hbinary := List.length_filterMap_le (Place.edge? t s.chart) (reach t s target effect)
  have hslots := h.length_slots_le
  rw [candidates, List.length_append, candidateCount, Nat.mul_comm]
  calc _ ≤ t.grammar.numProductions +
        2 * (t.sentence.size + slots.length) * t.grammar.numProductions := by omega
    _ = (2 * (t.sentence.size + slots.length) + 1) * t.grammar.numProductions := by
        rw [Nat.add_mul, Nat.one_mul, Nat.add_comm]
    _ ≤ _ := Nat.mul_le_mul_right _ (by omega)

/-- The edges an expansion makes aim at targets of the chart. -/
theorem hasTarget_candidates (h : Regular t chain pending slots s) (hg : t.grammar.WellFormed)
    {target : Target} (htarget : s.chart.HasTarget target) {effect : Effect} {e : Edge}
    (he : e ∈ candidates t s target effect) : s.chart.HasTarget e.target := by
  rcases List.mem_append.1 he with hunary | hbinary
  · obtain ⟨hlayer, -, id, x, hid, -, -, -, rfl⟩ := (mem_unaryCandidates hg).1 hunary
    refine ⟨⟨htarget.1.1, ?_⟩, hlayer⟩
    rw [h.isFor.symbols_eq]
    exact hg.parent_lt id hid
  · obtain ⟨p, hp, hedge⟩ := List.mem_filterMap.1 hbinary
    obtain ⟨-, -, -, l, r, x, -, -, rfl⟩ := edge?_eq_some.1 hedge
    obtain ⟨hid, hlo, hhi, hstop⟩ := h.inside_of_mem_reach hg htarget hp
    refine ⟨⟨⟨Nat.lt_trans hlo hhi, ?_⟩, ?_⟩, Nat.zero_le _⟩
    · rw [h.isFor.size_eq]
      exact hstop
    · rw [h.isFor.symbols_eq]
      exact hg.parent_lt p.production hid

/-- An expansion registers a new slot, which is pending no longer. -/
theorem expand (h : Regular t chain pending slots s) (hg : t.grammar.WellFormed)
    {target : Target} (htarget : s.chart.HasTarget target) (effect : Effect)
    (hnew : effect.isNew = true → effect.raised = true ∧ target.slot ∉ slots ∧
      s.chart.isPopulated target.slot.start target.slot.stop target.slot.symbol = true) :
    Regular t chain (fun x => pending x ∧ (effect.isNew = true → x ≠ target.slot))
      (if effect.isNew = true then slots ++ [target.slot] else slots)
      (s.expand t target effect) := by
  have hchart := State.chart_expand t s target effect
  have hqueued : ∀ e ∈ (s.expand t target effect).queue.toList, s.chart.HasTarget e.target := by
    intro e he
    rw [State.queue_expand] at he
    rcases mem_offered _ he with hold | ⟨e', he', rfl⟩
    · exact h.queued e hold
    · have htarget' := h.hasTarget_candidates hg htarget he'
      exact htarget'
  have hfault : (s.expand t target effect).faulty = true → Faults t := by
    intro hfaulty
    rw [State.faulty_expand, Bool.or_eq_true, Bool.or_eq_true, List.any_eq_true,
      List.any_eq_true] at hfaulty
    rcases hfaulty with (hold | ⟨p, hp, hplace⟩) | ⟨e, -, hcovers⟩
    · exact h.fault hold
    · obtain ⟨-, hlo, hhi, hstop⟩ := h.inside_of_mem_reach hg htarget hp
      rw [Place.isFaulty, Bool.and_eq_true, Bool.not_eq_true'] at hplace
      exact Or.inl ⟨p.start, p.stop, by omega, hstop, hplace.1, hplace.2⟩
    · exact Or.inr ⟨e, Bool.not_eq_true' _ ▸ hcovers⟩
  cases hisNew : effect.isNew with
  | false =>
      refine ⟨?_, ?_, ?_, h.nodup, ?_, ?_, ?_, ?_, hfault⟩
      · exact hchart ▸ h.isFor
      · exact hchart ▸ h.shaped
      · rw [State.frontier_expand, hisNew, Bool.and_false]
        exact h.tracks
      · exact hchart ▸ h.hasSlot
      · exact hchart ▸ h.populated
      · rw [hchart]
        intro x hx hpopulated
        exact (h.tracked x hx hpopulated).imp_right fun hpending => ⟨hpending, nofun⟩
      · exact hchart ▸ hqueued
  | true =>
      obtain ⟨hraised, hfresh, hslot⟩ := hnew hisNew
      have hmem : ∀ x ∈ slots ++ [target.slot], x ∈ slots ∨ x = target.slot := by
        intro x hx
        exact (List.mem_append.1 hx).imp_right List.mem_singleton.1
      refine ⟨?_, ?_, ?_, ?_, ?_, ?_, ?_, ?_, hfault⟩
      · exact hchart ▸ h.isFor
      · exact hchart ▸ h.shaped
      · rw [State.frontier_expand, hisNew, hraised]
        exact h.tracks.register target.slot
      · refine List.nodup_append.2 ⟨h.nodup, List.nodup_singleton _, ?_⟩
        rintro x hx y hy rfl
        exact hfresh (List.mem_singleton.1 hy ▸ hx)
      · rw [hchart]
        intro x hx
        rcases hmem x hx with hold | rfl
        · exact h.hasSlot x hold
        · exact htarget.1
      · rw [hchart]
        intro x hx
        rcases hmem x hx with hold | rfl
        · exact h.populated x hold
        · exact hslot
      · rw [hchart]
        intro x hx hpopulated
        by_cases heq : x = target.slot
        · exact Or.inl (List.mem_append_right _ (List.mem_singleton.2 heq))
        · rcases h.tracked x hx hpopulated with hold | hpending
          · exact Or.inl (List.mem_append_left _ hold)
          · exact Or.inr ⟨hpending, fun _ => heq⟩
      · exact hchart ▸ hqueued

/-- A state with the same chart and frontier, and edges that waited before. -/
theorem of_eq {s' : State} (h : Regular t chain pending slots s) (hchart : s'.chart = s.chart)
    (hfrontier : s'.frontier = s.frontier) (hfaulty : s'.faulty = s.faulty)
    (hqueue : ∀ e ∈ s'.queue.toList, e ∈ s.queue.toList) :
    Regular t chain pending slots s' where
  isFor := hchart ▸ h.isFor
  shaped := hchart ▸ h.shaped
  tracks := hfrontier ▸ h.tracks
  nodup := h.nodup
  hasSlot := hchart ▸ h.hasSlot
  populated := hchart ▸ h.populated
  tracked := hchart ▸ h.tracked
  queued e he := hchart ▸ h.queued e (hqueue e he)
  fault hs' := h.fault (hfaulty ▸ hs')

/-- After a commit its slot is pending, if it was new. -/
theorem store {s' : State} {e : Edge} (h : Regular t chain pending slots s)
    (he : s.chart.HasTarget e.target) (hchart : s'.chart = s.chart.store t.grammar e)
    (hfrontier : s'.frontier = s.frontier) (hfaulty : s'.faulty = s.faulty)
    (hqueue : ∀ e ∈ s'.queue.toList, e ∈ s.queue.toList) :
    Regular t chain (fun x => pending x ∨ x = e.slot ∧ s.chart.isNew e = true) slots s' := by
  have hpopulated : ∀ x, s.chart.HasSlot x →
      (s'.chart.isPopulated x.start x.stop x.symbol = true ↔
        x = e.slot ∨ s.chart.isPopulated x.start x.stop x.symbol = true) := by
    intro x hx
    rw [hchart]
    exact isPopulated_store h.shaped he hx
  refine ⟨hchart ▸ h.isFor.store e, hchart ▸ h.shaped.store he, hfrontier ▸ h.tracks, h.nodup,
    hchart ▸ h.hasSlot, ?_, ?_, ?_, fun hs' => h.fault (hfaulty ▸ hs')⟩
  · intro x hx
    exact (hpopulated x (h.hasSlot x hx)).2 (Or.inr (h.populated x hx))
  · intro x hx hpop
    have hx' : s.chart.HasSlot x := by
      rw [hchart] at hx
      exact hx
    have hbefore : s.chart.isPopulated x.start x.stop x.symbol = true →
        x ∈ slots ∨ pending x ∨ x = e.slot ∧ s.chart.isNew e = true := fun hp =>
      (h.tracked x hx' hp).imp_right Or.inl
    rcases (hpopulated x hx').1 hpop with rfl | hold
    · cases hnew : s.chart.isNew e with
      | true => exact Or.inr (Or.inr ⟨rfl, rfl⟩)
      | false =>
          rw [isNew_eq, Bool.not_eq_false'] at hnew
          exact (h.tracked _ hx' hnew).imp_right Or.inl
    · exact hbefore hold
  · intro f hf
    rw [hchart]
    exact h.queued f (hqueue f hf)

end Regular

/-! ## Turns go down -/

/-- A regular state that has nothing pending while it searches. -/
def Steady (t : Task) (chain : Nat) (s : State) : Prop :=
  ∃ pending slots, Regular t chain pending slots s ∧ (s.phase = .searching → ∀ x, ¬ pending x)

/-- The edges that wait, and those that can still be made. -/
def measure (b : BestFirst) (t : Task) (s : State) : Nat :=
  s.queue.size + candidateCount t b.maxChain * room b.rule s.chart

theorem measure_le (cand : Nat) {size size' free free' : Nat} (hsize : size' ≤ size + cand)
    (hfree : free' < free) : size' + cand * free' ≤ size + cand * free := by
  have hstep : cand * (free' + 1) ≤ cand * free := Nat.mul_le_mul_left cand hfree
  rw [Nat.mul_succ] at hstep
  omega

variable {b : BestFirst}

theorem steady_next (hg : t.grammar.WellFormed) {s s' : State} (h : Steady t b.maxChain s)
    (hstep : b.step t s = .next s') :
    Steady t b.maxChain s' ∧ measure b t s' < measure b t s := by
  obtain ⟨pending, slots, hregular, hnone⟩ := h
  obtain ⟨hphase, e, htop, hmoves⟩ := step_next hstep
  obtain ⟨rest, hlist⟩ : ∃ rest, s.queue.toList = e :: rest := List.head?_eq_some_iff.1 htop
  have hpop : s.queue.pop.2.toList = rest := by
    rw [EdgeQueue.toList_pop, hlist]
    rfl
  have hsize : s.queue.size = s.queue.pop.2.size + 1 := by
    rw [EdgeQueue.size, EdgeQueue.size, hpop, hlist]
    rfl
  have hwaited : ∀ f ∈ s.queue.pop.2.toList, f ∈ s.queue.toList := by
    intro f hf
    rw [hpop] at hf
    rw [hlist]
    exact List.mem_cons_of_mem e hf
  have htarget : s.chart.HasTarget e.target :=
    hregular.queued e (hlist ▸ List.mem_cons_self)
  unfold measure
  cases hmoves with
  | skip declined chart_eq frontier_eq queue_eq phase_eq faulty_eq =>
      refine ⟨⟨pending, slots, hregular.of_eq chart_eq frontier_eq faulty_eq ?_,
        fun _ => hnone hphase⟩, ?_⟩
      · rw [queue_eq]
        exact hwaited
      · rw [chart_eq, queue_eq]
        omega
  | complete accepted completes stops chart_eq frontier_eq queue_eq phase_eq faulty_eq =>
      have hroom := room_store_lt (g := t.grammar) hregular.shaped.sized htarget accepted
      refine ⟨⟨_, slots, hregular.store htarget chart_eq frontier_eq faulty_eq ?_, ?_⟩, ?_⟩
      · rw [queue_eq]
        exact hwaited
      · rw [phase_eq]
        exact nofun
      · rw [chart_eq, queue_eq]
        have hle := measure_le (candidateCount t b.maxChain)
          (Nat.le_add_right s.queue.pop.2.size _) hroom
        omega
  | expand before state_eq accepted continues chart_eq frontier_eq queue_eq phase_eq faulty_eq =>
      have hroom := room_store_lt (g := t.grammar) hregular.shaped.sized htarget accepted
      have hbefore := hregular.store htarget chart_eq frontier_eq faulty_eq
        (queue_eq ▸ hwaited)
      have htarget' : before.chart.HasTarget e.target := by
        rw [chart_eq]
        exact htarget
      subst state_eq
      constructor
      · have hafter := hbefore.expand hg htarget' ⟨s.chart.isNew e, s.chart.raises e⟩ ?_
        · refine ⟨_, _, hafter, ?_⟩
          rintro - x ⟨hold | ⟨hslot, hnew⟩, hne⟩
          · exact hnone hphase x hold
          · exact hne hnew hslot
        · -- A slot that was not populated is not tracked either.
          intro hnew
          have hnew' : s.chart.isNew e = true := hnew
          refine ⟨?_, ?_, ?_⟩
          · change s.chart.raises e = true
            rw [raises, hnew', Bool.true_or]
          · intro hmem
            rw [isNew_eq, Bool.not_eq_true'] at hnew'
            cases (hregular.populated _ hmem).symm.trans hnew'
          · rw [chart_eq]
            exact (isPopulated_store hregular.shaped htarget htarget.1).2 (Or.inl rfl)
      · have hmade := hbefore.length_candidates_le hg htarget'
          ⟨s.chart.isNew e, s.chart.raises e⟩
        have hoffered := size_offered_le t before.chart (candidates t before e.target
          ⟨s.chart.isNew e, s.chart.raises e⟩) before.queue
        rw [State.queue_expand, State.chart_expand, chart_eq]
        rw [queue_eq, chart_eq] at hoffered
        rw [queue_eq]
        have hle := measure_le _ (Nat.le_trans hoffered (Nat.add_le_add_left hmade _)) hroom
        omega

/-! ## Seeding is regular -/

/-- The first words are seeded, and some slots of the last of them are pending. -/
structure Seeding (t : Task) (chain words : Nat) (pending slots : List Slot) (s : State) :
    Prop where
  regular : Regular t chain (· ∈ pending) slots s
  sound : s.chart.Sound t chain
  only_words : ∀ τ, s.chart.HasTarget τ →
    ¬ (τ.slot.stop = τ.slot.start + 1 ∧ τ.slot.start < words) → s.chart.scoreAt τ = .unreachable
  nodup : pending.Nodup
  fresh : ∀ x ∈ pending, s.chart.HasSlot x ∧
    s.chart.isPopulated x.start x.stop x.symbol = true ∧ x ∉ slots
  size_le : s.queue.size ≤ slots.length * candidateCount t chain

theorem seeding_start (b : BestFirst) (t : Task) : Seeding t b.maxChain 0 [] [] (b.start t) := by
  have hsound := sound_empty t b.maxChain
  have hqueue : (b.start t).queue.toList = [] := b.queue.toList_reset
  have hblank : ∀ x, (b.start t).chart.HasSlot x →
      ¬ (b.start t).chart.isPopulated x.start x.stop x.symbol = true := by
    intro x hx hpopulated
    have hreach := (hsound.coherent.isPopulated_iff hx).1 hpopulated
    rw [bestAt, bestOfSlot_empty] at hreach
    cases hreach
  constructor
  · constructor
    · exact hsound.isFor
    · exact hsound.coherent.shaped
    · exact b.frontier.tracks_reset _ _
    · exact List.nodup_nil
    · intro x hx
      cases hx
    · intro x hx
      cases hx
    · intro x hx hpopulated
      exact absurd hpopulated (hblank x hx)
    · intro e he
      rw [hqueue] at he
      cases he
    · intro hfaulty
      cases hfaulty
  · exact hsound
  · intro τ _ _
    change ((empty _ _ _).layerAt τ).inside = _
    rw [layerAt_empty]
  · exact List.nodup_nil
  · intro x hx
    cases hx
  · rw [EdgeQueue.size, hqueue]
    exact Nat.zero_le _

/-- The slots of a word, once seeded. -/
def wordSlots (i : Nat) (nts : List NonTerminal) : List Slot := nts.map fun nt => ⟨i, i + 1, nt⟩

theorem mem_wordSlots {i : Nat} {nts : List NonTerminal} {x : Slot} :
    x ∈ wordSlots i nts ↔ x.start = i ∧ x.stop = i + 1 ∧ x.symbol ∈ nts := by
  obtain ⟨start, stop, nt⟩ := x
  simp only [wordSlots, List.mem_map, Slot.mk.injEq]
  constructor
  · rintro ⟨nt', hnt', rfl, rfl, rfl⟩
    exact ⟨rfl, rfl, hnt'⟩
  · rintro ⟨rfl, rfl, hnt⟩
    exact ⟨nt, hnt, rfl, rfl, rfl⟩

theorem Seeding.populated_eq_nil {i : Nat} (hi : i < t.sentence.size)
    (h : Seeding t chain i [] slots s) : s.chart.populated i (i + 1) = [] := by
  have hspan : IsSpan s.chart.size i (i + 1) := by
    rw [h.sound.isFor.size_eq]
    exact ⟨Nat.lt_succ_self i, hi⟩
  refine h.sound.coherent.populated_eq_nil hspan fun nt d hτ => h.only_words _ hτ ?_
  rintro ⟨-, hlt⟩
  exact Nat.lt_irrefl i hlt

/-- A word is seeded: the slots it populates are pending. -/
theorem Seeding.word (hg : t.grammar.WellFormed) {i : Nat} (hi : i < t.sentence.size)
    (h : Seeding t chain i [] slots s) (work : Work) :
    Seeding t chain (i + 1)
      (wordSlots i (s.chart.seed t.grammar (t.sentence.token? i) i).1.toList) slots
      { s with chart := (s.chart.seed t.grammar (t.sentence.token? i) i).2, work } := by
  have hspan : IsSpan s.chart.size i (i + 1) := by
    rw [h.sound.isFor.size_eq]
    exact ⟨Nat.lt_succ_self i, hi⟩
  have hempty := h.populated_eq_nil hi
  have hextends := extends_seed h.sound hg hi
  have hseeded := seed_fst h.sound hg hi hempty
  have hspan' : IsSpan (s.chart.seed t.grammar (t.sentence.token? i) i).2.size i (i + 1) := by
    rw [hextends.grows.size_eq]
    exact hspan
  have hsound := hextends.sound
  generalize s.chart.seed t.grammar (t.sentence.token? i) i = seeded at *
  obtain ⟨changed, chart⟩ := seeded
  dsimp only at *
  rw [hseeded]
  have hkept : ∀ x ∈ slots, chart.isPopulated x.start x.stop x.symbol = true := by
    intro x hx
    have hslot := h.regular.hasSlot x hx
    have hslot' := hextends.grows.hasSlot.2 hslot
    have hreach := (h.sound.coherent.isPopulated_iff hslot).1 (h.regular.populated x hx)
    exact (hsound.coherent.isPopulated_iff hslot').2 (Score.isReachable_mono hreach
      (hsound.coherent.best_number hslot') (hextends.grows.best_le x hslot))
  refine ⟨⟨hsound.isFor, hsound.coherent.shaped, h.regular.tracks, h.regular.nodup, ?_, hkept, ?_,
    ?_, h.regular.fault⟩, hsound, ?_, ?_, ?_, h.size_le⟩
  · intro x hx
    exact hextends.grows.hasSlot.2 (h.regular.hasSlot x hx)
  · intro x hx hpopulated
    rw [hsound.coherent.isPopulated_iff hx] at hpopulated
    by_cases hcell : x.start = i ∧ x.stop = i + 1
    · obtain ⟨start, stop, nt⟩ := x
      dsimp only at hcell
      obtain ⟨rfl, rfl⟩ := hcell
      refine Or.inr (mem_wordSlots.2 ⟨rfl, rfl, ?_⟩)
      exact (hsound.coherent.populated_iff _ _ _ hspan').2 ⟨hx.2, hpopulated⟩
    · -- Another cell keeps its scores, and its populated slots were tracked.
      have hx' := hextends.grows.hasSlot.1 hx
      have hreach := Score.isReachable_mono hpopulated (h.sound.coherent.best_number hx')
        (hextends.bestAt_le h.sound hx' fun d hword => hcell ⟨hword.1, hword.2.1⟩)
      rcases h.regular.tracked x hx' ((h.sound.coherent.isPopulated_iff hx').2 hreach) with
        htracked | hnone
      · exact Or.inl htracked
      · cases hnone
  · intro e he
    exact hextends.grows.hasTarget.2 (h.regular.queued e he)
  · intro τ hτ hnot
    have hτ' := hextends.grows.hasTarget.1 hτ
    refine (hextends.frame τ hτ' fun hword => hnot ?_).trans (h.only_words τ hτ' fun hold => ?_)
    · exact ⟨by rw [hword.1, hword.2.1], by rw [hword.1]; exact Nat.lt_succ_self i⟩
    · exact hnot ⟨hold.1, Nat.lt_succ_of_lt hold.2⟩
  · refine (hsound.coherent.nodup _ _ hspan').map fun nt nt' heq => ?_
    injection heq
  · intro x hx
    obtain ⟨hstart, hstop, hmem⟩ := mem_wordSlots.1 hx
    obtain ⟨start, stop, nt⟩ := x
    dsimp only at hstart hstop hmem
    subst hstart hstop
    obtain ⟨hnt, hreach⟩ := (hsound.coherent.populated_iff _ _ _ hspan').1 hmem
    have hslot : chart.HasSlot ⟨start, start + 1, nt⟩ := ⟨hspan', hnt⟩
    refine ⟨hslot, (hsound.coherent.isPopulated_iff hslot).2 hreach, fun htracked => ?_⟩
    have hbefore := hextends.grows.hasSlot.1 hslot
    have hmem' := (h.sound.coherent.populated_iff _ _ _ hspan).2 ⟨hbefore.2,
      (h.sound.coherent.isPopulated_iff hbefore).1 (h.regular.populated _ htracked)⟩
    rw [hempty] at hmem'
    cases hmem'

/-- A pending slot is expanded. -/
theorem Seeding.slot (hg : t.grammar.WellFormed) {words : Nat} {x : Slot} {pending : List Slot}
    (h : Seeding t chain words (x :: pending) slots s) :
    Seeding t chain words pending (slots ++ [x]) (s.expand t ⟨x, 0⟩ ⟨true, true⟩) := by
  obtain ⟨hslot, hpopulated, hfresh⟩ := h.fresh x List.mem_cons_self
  have htarget : s.chart.HasTarget ⟨x, 0⟩ := ⟨hslot, Nat.zero_le _⟩
  have hchart := State.chart_expand t s ⟨x, 0⟩ ⟨true, true⟩
  obtain ⟨hnot, hnodup⟩ := List.nodup_cons.1 h.nodup
  have hregular := h.regular.expand hg htarget ⟨true, true⟩
    fun _ => ⟨rfl, hfresh, hpopulated⟩
  refine ⟨hregular.mono ?_, hchart ▸ h.sound, hchart ▸ h.only_words, hnodup, ?_, ?_⟩
  · rintro y ⟨hy, hne⟩
    rcases List.mem_cons.1 hy with heq | hrest
    · exact absurd heq (hne rfl)
    · exact hrest
  · rw [hchart]
    intro y hy
    obtain ⟨hyslot, hypopulated, hyfresh⟩ := h.fresh y (List.mem_cons_of_mem x hy)
    refine ⟨hyslot, hypopulated, fun hmem => ?_⟩
    rcases List.mem_append.1 hmem with hold | hlast
    · exact hyfresh hold
    · rw [List.mem_singleton] at hlast
      subst hlast
      exact hnot hy
  · have hmade := h.regular.length_candidates_le hg htarget ⟨true, true⟩
    have hoffered := size_offered_le t s.chart (candidates t s ⟨x, 0⟩ ⟨true, true⟩) s.queue
    have hsize := h.size_le
    rw [State.queue_expand, List.length_append, List.length_singleton, Nat.succ_mul]
    omega

theorem seeding_words (hg : t.grammar.WellFormed) (b : BestFirst) :
    ∃ slots, Seeding t b.maxChain t.sentence.size [] slots
      ((List.range t.sentence.size).foldl (fun s i => s.seedWord t i) (b.start t)) := by
  refine seed_induction (I := fun i s => ∃ slots, Seeding t b.maxChain i [] slots s)
    (J := fun i rest s => ∃ slots, Seeding t b.maxChain (i + 1) (wordSlots i rest) slots s)
    ?_ ?_ ?_ ⟨[], seeding_start b t⟩ _ (Nat.le_refl _)
  · rintro i s hi ⟨slots, h⟩ work
    exact ⟨slots, h.word hg hi work⟩
  · rintro i nt rest s hi ⟨slots, h⟩
    exact ⟨_, h.slot hg⟩
  · rintro i s hi ⟨slots, h⟩
    exact ⟨slots, h⟩

/-- The turns begin in a steady state. -/
theorem steady_seed (hg : t.grammar.WellFormed) (b : BestFirst) :
    Steady t b.maxChain ((b.start t).seed t b.untilExhausted) := by
  obtain ⟨slots, hseeding⟩ := seeding_words hg b
  exact ⟨_, slots, hseeding.regular.of_eq rfl rfl rfl fun _ he => he, fun _ => nofun⟩

/-! ## The end of the search -/

/-- The search comes to a turn that ends it, and an invariant of its turns holds there. -/
theorem search_halts (hg : t.grammar.WellFormed) (b : BestFirst) {I : State → Prop}
    (hseed : I ((b.start t).seed t b.untilExhausted))
    (hnext : ∀ s s', Steady t b.maxChain s → I s → b.step t s = .next s' → I s') :
    ∃ s, Steady t b.maxChain s ∧ I s ∧
      b.step t s = .halt
        (b.run t (turns t b.maxChain) ((b.start t).seed t b.untilExhausted)) := by
  obtain ⟨slots, hseeding⟩ := seeding_words hg b
  have hsize : ((b.start t).seed t b.untilExhausted).queue.size ≤
      layerCount t b.maxChain * candidateCount t b.maxChain :=
    Nat.le_trans hseeding.size_le
      (Nat.mul_le_mul_right _ hseeding.regular.length_slots_le)
  have hroom : room b.rule ((b.start t).seed t b.untilExhausted).chart ≤
      layerCount t b.maxChain * (2 ^ 32 - 1) := by
    refine Nat.le_trans (room_le _ _) (Nat.mul_le_mul_right _ (Nat.le_of_eq ?_))
    refine hseeding.sound.coherent.sized.layers_size.trans ?_
    rw [hseeding.sound.isFor.size_eq, hseeding.sound.isFor.symbols_eq,
      hseeding.sound.isFor.maxChain_eq]
    rfl
  have hmeasure : measure b t ((b.start t).seed t b.untilExhausted) < turns t b.maxChain := by
    rw [turns_eq, Nat.lt_succ_iff, measure]
    calc _ ≤ layerCount t b.maxChain * candidateCount t b.maxChain +
          candidateCount t b.maxChain * (layerCount t b.maxChain * (2 ^ 32 - 1)) :=
            Nat.add_le_add hsize (Nat.mul_le_mul_left _ hroom)
      _ = layerCount t b.maxChain * 2 ^ 32 * candidateCount t b.maxChain := by
          generalize layerCount t b.maxChain = layers
          generalize candidateCount t b.maxChain = cand
          rw [Nat.mul_comm cand, ← Nat.add_mul, Nat.add_comm]
          exact congrArg (· * cand) (Nat.mul_succ layers (2 ^ 32 - 1)).symm
  obtain ⟨s, ⟨hI, hI'⟩, hhalt⟩ := (runs b t).halts
    (I := fun s => Steady t b.maxChain s ∧ I s) (measure b t) (fun s s' hs hstep =>
      have hsteps := steady_next hg hs.1 hstep
      ⟨⟨hsteps.1, hnext s s' hs.1 hs.2 hstep⟩, hsteps.2⟩) _ _ ⟨steady_seed hg b, hseed⟩ hmeasure
  exact ⟨s, hI, hI', hhalt⟩

/-- What a parse reports is where the search ended. -/
theorem parse_eq (b : BestFirst) (t : Task) {s : State}
    (hs : b.run t (turns t b.maxChain) ((b.start t).seed t b.untilExhausted) = s) :
    (b.parse t).1.chart = s.chart ∧ (b.parse t).1.faulty = s.faulty ∧
      (b.parse t).1.outcome = s.chart.outcome t.grammar := by
  rw [parse, search, hs]
  exact ⟨rfl, rfl, rfl⟩

/-- The chart of a parse and its outcome are those of a state in which, without a bound on
the edges taken, the search was done or the queue empty. -/
theorem parse_ends (hg : t.grammar.WellFormed) (b : BestFirst) {I : State → Prop}
    (hseed : I ((b.start t).seed t b.untilExhausted))
    (hnext : ∀ s s', Steady t b.maxChain s → I s → b.step t s = .next s' → I s') :
    ∃ s, I s ∧ (b.parse t).1.chart = s.chart ∧
      (b.parse t).1.outcome = s.chart.outcome t.grammar ∧
      (b.maxPops = 0 → s.phase ≠ .searching ∨ s.queue.toList = []) := by
  obtain ⟨s, -, hI, hhalt⟩ := search_halts hg b hseed hnext
  generalize hrun : b.run t (turns t b.maxChain) _ = last at hhalt
  obtain ⟨hchart, -, hended⟩ := step_halt hhalt
  obtain ⟨hreport, -, houtcome⟩ := parse_eq b t hrun
  exact ⟨s, hI, hreport.trans hchart, hchart ▸ houtcome, hended⟩

/-- A parse is faulty only if the task has a fault. -/
theorem faults_of_faulty_parse (hg : t.grammar.WellFormed) {b : BestFirst}
    (hfaulty : (b.parse t).1.faulty = true) : Faults t := by
  obtain ⟨s, ⟨_, _, hregular, _⟩, -, hhalt⟩ := search_halts hg b (I := fun _ => True) trivial
    fun _ _ _ _ _ => trivial
  generalize hrun : b.run t (turns t b.maxChain) _ = last at hhalt
  obtain ⟨-, heq, -⟩ := step_halt hhalt
  rw [(parse_eq b t hrun).2.1, heq] at hfaulty
  exact hregular.fault hfaulty

end BestFirst
end BestParse
