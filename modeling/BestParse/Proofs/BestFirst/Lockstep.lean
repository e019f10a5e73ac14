import BestParse.Proofs.BestFirst.Arrangement
import BestParse.Proofs.BestFirst.Log

/-!
# Frontiers in lockstep

A ghost frontier and a scan make the same edges, and not in the same order.  So the two searches
may take different ways where edges have equal figures of merit, and each later step may drive
them further apart.

Without such ties they keep in step.  An expansion offers the same edges in some order, so the
queues stay equivalent (`offered_perm`), and the heads of equivalent queues are the same edge.
The invariant is `Lockstep`; it says that everything agrees that the rest of the search reads.
What it leaves out are the frontiers themselves, and counts that depend on the order of offers,
such as those of the edges that a memo queue declined.

That no ties occur is known of the search with the scan only.  Its offers only grow, so they are
untied at every moment before the end (`Untied.mono`), and the other search offers nothing else.
-/

namespace BestParse
namespace BestFirst

open Chart

variable {t : Task} {chain : Nat} {b b' : BestFirst} {s s' u : State} {e f : Edge}
  {target : Target} {effect : Effect}

/-! ## Untied offers -/

/-- Every figure of merit that was offered is a number, and different edges have different
ones. -/
structure Untied (history : Array QueueEvent) : Prop where
  number : ∀ e, Offers history e → e.fom ≠ .nan
  different : ∀ e f, Offers history e → Offers history f → e.fom.Agrees f.fom → e = f

theorem Untied.mono {history history' : Array QueueEvent} (h : Untied history')
    (hsub : ∀ f, Offers history f → Offers history' f) : Untied history :=
  ⟨fun e he => h.number e (hsub e he), fun e f he hf => h.different e f (hsub e he) (hsub f hf)⟩

/-- The edges that were offered, in order. -/
def offers (history : Array QueueEvent) : List Edge :=
  history.toList.filterMap fun
    | .pushed e => some e
    | .declined e => some e
    | .popped _ => none

theorem mem_offers {history : Array QueueEvent} : e ∈ offers history ↔ Offers history e := by
  simp only [offers, Offers, List.mem_filterMap, Array.mem_toList_iff]
  constructor
  · rintro ⟨event, hmem, heq⟩
    cases event with
    | pushed f =>
        cases heq
        exact Or.inl hmem
    | declined f =>
        cases heq
        exact Or.inr hmem
    | popped taken => cases heq
  · rintro (hpushed | hdeclined)
    · exact ⟨_, hpushed, rfl⟩
    · exact ⟨_, hdeclined, rfl⟩

instance decidableUntied (history : Array QueueEvent) : Decidable (Untied history) :=
  decidable_of_iff
    ((∀ e ∈ offers history, e.fom ≠ .nan) ∧
      ∀ e ∈ offers history, ∀ f ∈ offers history, e.fom.Agrees f.fom → e = f) <| by
    simp only [mem_offers]
    exact ⟨fun h => ⟨h.1, fun e f he hf => h.2 e he f hf⟩,
      fun h => ⟨h.number, fun e he f hf => h.different e f he hf⟩⟩

theorem offers_next (h : b.step t s = .next u) (hf : Offers s.history f) :
    Offers u.history f := by
  obtain ⟨-, -, e, -, rfl⟩ := next_iff.1 h
  have htaken : Offers (s.history.push (.popped (some e))) f := offers_popped.2 hf
  unfold turned
  split
  · split
    · exact htaken
    · exact offers_expand.2 (Or.inl htaken)
  · exact htaken

theorem offers_run (turns : Nat) (s : State) (hf : Offers s.history f) :
    Offers (b.run t turns s).history f :=
  (runs b t).keeps (I := fun s => Offers s.history f) (fun _ _ hf hstep => offers_next hstep hf)
    (fun _ _ hf hstep => (offers_halt hstep).2 hf) turns hf

theorem offers_expandAll (i : Nat) : ∀ (nts : List NonTerminal) (s : State), Offers s.history f →
    Offers (nts.foldl (fun s nt => s.expand t ⟨⟨i, i + 1, nt⟩, 0⟩ ⟨true, true⟩) s).history f
  | [], _, hf => hf
  | _ :: nts, _, hf => offers_expandAll i nts _ (offers_expand.2 (Or.inl hf))

theorem offers_seedWord (i : Nat) (hf : Offers s.history f) :
    Offers (s.seedWord t i).history f := by
  rw [seedWord_eq]
  exact offers_expandAll i _ _ hf

/-! ## Candidates -/

theorem fom_eq_of_mem_candidates (hg : t.grammar.WellFormed)
    (he : e ∈ candidates t s target effect) : e.fom = e.inside := by
  rcases List.mem_append.1 he with hunary | hbinary
  · obtain ⟨-, -, id, x, -, -, -, -, rfl⟩ := (mem_unaryCandidates hg).1 hunary
    rfl
  · obtain ⟨p, -, hedge⟩ := List.mem_filterMap.1 hbinary
    obtain ⟨-, -, -, l, r, x, -, -, rfl⟩ := edge?_eq_some.1 hedge
    rfl

/-- Rating different candidates makes different edges. -/
theorem eq_of_withFom_eq {x y : Score} (he : e.fom = e.inside) (hf : f.fom = f.inside)
    (h : e.withFom x = f.withFom y) : e = f := by
  cases e
  cases f
  simp only [Edge.withFom, Edge.mk.injEq] at *
  simp [h, he, hf]

theorem nodup_unaryCandidates (hg : t.grammar.WellFormed) (c : Chart) (target : Target) :
    (unaryCandidates t c target).Nodup := by
  unfold unaryCandidates
  dsimp only
  split
  · refine List.Nodup.filterMap (fun id id' e he he' => ?_)
      (hg.nodup_find (.child target.slot.symbol))
    simp only [Option.mem_def, Option.ite_none_right_eq_some, Option.map_eq_some_iff] at he he'
    obtain ⟨-, x, -, rfl⟩ := he
    obtain ⟨-, x', -, heq⟩ := he'
    exact (congrArg Edge.production heq).symm
  · exact List.nodup_nil

section

variable (hg : t.grammar.WellFormed) (h : Expands b t s target effect)

include hg h

/-- An expansion makes no edge twice. -/
theorem Expands.nodup_candidates : (candidates t s target effect).Nodup := by
  obtain ⟨-, hslot, pending, slots, hregular, -⟩ := h.regular hg
  refine List.nodup_append.2 ⟨nodup_unaryCandidates hg _ _, ?_, ?_⟩
  · unfold reach
    split
    · exact hregular.nodup_binaries hg hslot
    · exact List.nodup_nil
  · -- Unary edges are above the bottom layer, and binary edges are in it.
    rintro e hunary _ hbinary rfl
    obtain ⟨-, -, id, x, -, -, -, -, rfl⟩ := (mem_unaryCandidates hg).1 hunary
    obtain ⟨p, -, hedge⟩ := List.mem_filterMap.1 hbinary
    obtain ⟨-, -, -, l, r, y, -, -, heq⟩ := edge?_eq_some.1 hedge
    cases congrArg Edge.layer heq

variable (hchart : s.chart = s'.chart) (hscan : s'.frontier = .scan)

include hchart hscan

/-- A scan over the same chart makes the same edges in some order. -/
theorem Expands.candidates_perm :
    (candidates t s target effect).Perm (candidates t s' target effect) := by
  obtain ⟨hlinked, hslot, pending, slots, hregular, hpending⟩ := h.regular hg
  have hbinaries := hregular.binaries_perm hg hslot hlinked hpending
  unfold binaries at hbinaries
  unfold candidates reach
  rw [hscan, ← hchart]
  refine List.Perm.append_left _ ?_
  split
  · exact hbinaries
  · exact List.Perm.refl _

/-- Where the limits are out of range for the frontier, they are for a scan. -/
theorem Expands.isFaulty_reach
    (hfaulty : (reach t s target effect).any (Place.isFaulty t.limits) = true) :
    (reach t s' target effect).any (Place.isFaulty t.limits) = true := by
  obtain ⟨-, hslot, pending, slots, hregular, -⟩ := h.regular hg
  unfold reach at hfaulty ⊢
  rw [hscan, ← hchart]
  rw [hregular.isFor.size_eq] at hfaulty ⊢
  split at hfaulty
  · next hraised =>
    obtain ⟨p, hp, hplace⟩ := List.any_eq_true.1 hfaulty
    rw [if_pos hraised]
    exact List.any_eq_true.2 ⟨p, Frontier.mem_scanPlaces hg hregular.tracks
      (fun y hy => hregular.isSpan (hregular.hasSlot y hy)) (hregular.isSpan hslot) hp, hplace⟩
  · cases hfaulty

end

/-! ## Searches in step -/

/-- The parsers have the same settings and queues of the same kind. -/
structure SameSettings (b b' : BestFirst) : Prop where
  rule_eq : b.rule = b'.rule
  kind_eq : b.queue.kind = b'.queue.kind
  maxChain_eq : b.maxChain = b'.maxChain
  maxPops_eq : b.maxPops = b'.maxPops
  untilExhausted_eq : b.untilExhausted = b'.untilExhausted

/-- A search with a scan and another one agree in all that the rest of the search reads. -/
structure Lockstep (s s' : State) : Prop where
  chart_eq : s.chart = s'.chart
  phase_eq : s.phase = s'.phase
  queue : s.queue.Equivalent s'.queue
  popped_eq : popped s.history = popped s'.history
  pops_eq : s.work.pops = s'.work.pops
  committed_eq : s.work.committed = s'.work.committed
  faulty : s'.faulty = true → s.faulty = true
  scan : s.frontier = .scan
  sorted : s.queue.Sorted

/-- Candidates whose offers are untied are rated differently. -/
theorem Untied.ratings (h : Untied (s.expand t target effect).history)
    (hg : t.grammar.WellFormed) (hnodup : (candidates t s target effect).Nodup) :
    (∀ e ∈ candidates t s target effect, t.merit.score e s.chart ≠ .nan) ∧
      (candidates t s target effect).Pairwise fun e f =>
        (t.merit.score e s.chart).rank ≠ (t.merit.score f s.chart).rank := by
  have hoffers : ∀ e ∈ candidates t s target effect,
      Offers (s.expand t target effect).history (e.withFom (t.merit.score e s.chart)) :=
    fun e he => offers_expand.2 (Or.inr ⟨e, he, rfl⟩)
  refine ⟨fun e he => h.number _ (hoffers e he), hnodup.imp_of_mem fun {e f} he hf hne hrank => ?_⟩
  have heq := h.different _ _ (hoffers e he) (hoffers f hf)
    ⟨h.number _ (hoffers e he), h.number _ (hoffers f hf), hrank⟩
  exact hne (eq_of_withFom_eq (fom_eq_of_mem_candidates hg he) (fom_eq_of_mem_candidates hg hf) heq)

theorem Lockstep.expand (h : Lockstep s s') (hg : t.grammar.WellFormed)
    (hexpands : Expands b' t s' target effect)
    (huntied : Untied (s.expand t target effect).history) :
    Lockstep (s.expand t target effect) (s'.expand t target effect) := by
  have hperm := hexpands.candidates_perm hg h.chart_eq.symm h.scan
  obtain ⟨hnumber, hdifferent⟩ := huntied.ratings hg
    (hperm.nodup_iff.1 (hexpands.nodup_candidates hg))
  constructor
  case chart_eq =>
    rw [State.chart_expand, State.chart_expand, h.chart_eq]
  case phase_eq =>
    rw [State.phase_expand, State.phase_expand, h.phase_eq]
  case queue =>
    rw [State.queue_expand, State.queue_expand, ← h.chart_eq]
    exact (offered_perm hperm.symm hnumber hdifferent h.sorted).trans
      (equivalent_offered _ h.queue)
  case popped_eq =>
    exact (State.log_expand t s _ _).1.trans
      (h.popped_eq.trans (State.log_expand t s' _ _).1.symm)
  case pops_eq =>
    rw [State.pops_expand, State.pops_expand, h.pops_eq]
  case committed_eq =>
    exact (State.log_expand t s _ _).2.trans
      (h.committed_eq.trans (State.log_expand t s' _ _).2.symm)
  case faulty =>
    intro hfaulty
    rw [State.faulty_expand, Bool.or_eq_true, Bool.or_eq_true] at hfaulty ⊢
    refine hfaulty.imp (Or.imp h.faulty ?_) fun hcovers => ?_
    · exact hexpands.isFaulty_reach hg h.chart_eq.symm h.scan
    · rw [← hperm.any_eq]
      exact hcovers
  case scan =>
    rw [State.frontier_expand, h.scan]
    split <;> rfl
  case sorted =>
    rw [State.queue_expand]
    exact sorted_offered t _ _ h.sorted

/-! ## Seeding -/

theorem lockstep_start (h : SameSettings b b') (hscan : b.frontier = .scan) (t : Task) :
    Lockstep (b.start t) (b'.start t) := by
  have hempty : (b.start t).queue.toList = [] := b.queue.toList_reset
  constructor
  case chart_eq => exact congrArg (Chart.empty t.grammar t.sentence.size) h.maxChain_eq
  case queue =>
    show (EdgeQueue.empty b.queue.kind).Equivalent (EdgeQueue.empty b'.queue.kind)
    rw [h.kind_eq]
    exact .refl _
  case scan =>
    show b.frontier.reset t.sentence.size = .scan
    rw [hscan]
    rfl
  case sorted =>
    rw [EdgeQueue.Sorted, hempty]
    exact List.Pairwise.nil
  case faulty =>
    intro hfaulty
    cases hfaulty
  all_goals rfl

theorem Lockstep.sown (h : Lockstep s s') (t : Task) (i : Nat) :
    Lockstep (s.sown t i) (s'.sown t i) := by
  have hseed := congrArg
    (fun c : Chart => c.seed t.grammar (t.sentence.token? i) i) h.chart_eq
  constructor
  case chart_eq => exact congrArg Prod.snd hseed
  case committed_eq =>
    exact congrArg₂ (· + ·) h.committed_eq (congrArg (fun seeded => seeded.1.size) hseed)
  case phase_eq => exact h.phase_eq
  case queue => exact h.queue
  case popped_eq => exact h.popped_eq
  case pops_eq => exact h.pops_eq
  case faulty => exact h.faulty
  case scan => exact h.scan
  case sorted => exact h.sorted

theorem Lockstep.expandAll (hg : t.grammar.WellFormed) {i : Nat} :
    ∀ (nts : List NonTerminal) {s s' : State}, Lockstep s s' → Seeds b' t (i + 1) nts s' →
      Untied (nts.foldl (fun s nt => s.expand t ⟨⟨i, i + 1, nt⟩, 0⟩ ⟨true, true⟩) s).history →
      Lockstep (nts.foldl (fun s nt => s.expand t ⟨⟨i, i + 1, nt⟩, 0⟩ ⟨true, true⟩) s)
        (nts.foldl (fun s nt => s.expand t ⟨⟨i, i + 1, nt⟩, 0⟩ ⟨true, true⟩) s')
  | [], _, _, h, _, _ => h
  | nt :: nts, s, s', h, hseeds, huntied => by
      have hnow : Untied (s.expand t ⟨⟨i, i + 1, nt⟩, 0⟩ ⟨true, true⟩).history :=
        huntied.mono fun f => offers_expandAll i nts _
      exact Lockstep.expandAll hg nts (h.expand hg (.word hseeds) hnow) hseeds.slot huntied

theorem Lockstep.seedWord (h : Lockstep s s') (hg : t.grammar.WellFormed) {i : Nat}
    (hi : i < t.sentence.size) (hseeds : Seeds b' t i [] s')
    (huntied : Untied (s.seedWord t i).history) :
    Lockstep (s.seedWord t i) (s'.seedWord t i) := by
  rw [seedWord_eq] at huntied
  rw [seedWord_eq, seedWord_eq t s']
  rw [h.chart_eq] at huntied ⊢
  exact Lockstep.expandAll hg _ (h.sown t i) (hseeds.word hi) huntied

/-- The seedings are in step and commit the same edges. -/
theorem lockstep_words (hg : t.grammar.WellFormed) (hsame : SameSettings b b')
    (hscan : b.frontier = .scan) : ∀ n ≤ t.sentence.size,
    Untied ((List.range n).foldl (fun s i => s.seedWord t i) (b.start t)).history →
    Lockstep ((List.range n).foldl (fun s i => s.seedWord t i) (b.start t))
        ((List.range n).foldl (fun s i => s.seedWord t i) (b'.start t)) ∧
      seedCommits b t n = seedCommits b' t n
  | 0, _, _ => ⟨lockstep_start hsame hscan t, rfl⟩
  | n + 1, hn, huntied => by
      rw [List.range_succ, List.foldl_append, List.foldl_cons, List.foldl_nil] at huntied
      obtain ⟨hbefore, hcommits⟩ := lockstep_words hg hsame hscan n (Nat.le_of_succ_le hn)
        (huntied.mono fun f => offers_seedWord n)
      have hseeds := seeds_words b' t n (Nat.le_of_succ_le hn)
      constructor
      · rw [List.range_succ, List.foldl_append, List.foldl_append]
        exact hbefore.seedWord hg hn hseeds huntied
      · rw [seedCommits_succ, seedCommits_succ, hcommits, hbefore.chart_eq]

theorem lockstep_seed (hg : t.grammar.WellFormed) (hsame : SameSettings b b')
    (hscan : b.frontier = .scan)
    (huntied : Untied ((b.start t).seed t b.untilExhausted).history) :
    Lockstep ((b.start t).seed t b.untilExhausted) ((b'.start t).seed t b'.untilExhausted) ∧
      seedCommits b t t.sentence.size = seedCommits b' t t.sentence.size := by
  obtain ⟨hwords, hcommits⟩ := lockstep_words hg hsame hscan t.sentence.size (Nat.le_refl _) huntied
  refine ⟨{ hwords with phase_eq := ?_ }, hcommits⟩
  unfold State.seed
  dsimp only
  rw [hwords.chart_eq, hsame.untilExhausted_eq]

/-! ## Turns -/

theorem Lockstep.turnCommit?_eq (h : Lockstep s s') (hsame : SameSettings b b') :
    b.turnCommit? s = b'.turnCommit? s' := by
  unfold turnCommit?
  rw [h.queue.toList_eq, h.chart_eq, hsame.rule_eq]

theorem Lockstep.popped_push_eq (h : Lockstep s s') (event : QueueEvent) :
    popped (s.history.push event) = popped (s'.history.push event) := by
  rw [popped_push, popped_push, h.popped_eq]

theorem Lockstep.dropped (h : Lockstep s s') (e : Edge) : Lockstep (s.dropped e) (s'.dropped e) :=
  { h with
    queue := h.queue.pop
    popped_eq := h.popped_push_eq _
    pops_eq := congrArg (· + 1) h.pops_eq
    sorted := h.sorted.pop }

theorem Lockstep.taken (h : Lockstep s s') (t : Task) (e : Edge) :
    Lockstep (s.taken t e) (s'.taken t e) :=
  { h with
    chart_eq := congrArg (fun c : Chart => c.store t.grammar e) h.chart_eq
    queue := h.queue.pop
    popped_eq := h.popped_push_eq _
    pops_eq := congrArg (· + 1) h.pops_eq
    committed_eq := congrArg (· + 1) h.committed_eq
    sorted := h.sorted.pop }

/-- Turns that take the same edge keep in step. -/
theorem Lockstep.turned (h : Lockstep s s') (hg : t.grammar.WellFormed)
    (hsame : SameSettings b b') (hreached : Reached b' t s') (hphase : s'.phase = .searching)
    (hallowed : ¬ (0 < b'.maxPops ∧ b'.maxPops ≤ s'.work.pops))
    (htop : s'.queue.toList.head? = some e) (huntied : Untied (b.turned t s e).history) :
    Lockstep (b.turned t s e) (b'.turned t s' e) := by
  unfold BestFirst.turned at huntied ⊢
  rw [hsame.rule_eq, hsame.untilExhausted_eq, h.chart_eq] at huntied ⊢
  by_cases haccepted : b'.rule.accepts s'.chart e = true
  · rw [if_pos haccepted] at huntied ⊢
    rw [if_pos haccepted]
    by_cases hdone : ((s'.chart.store t.grammar e).isComplete t.grammar &&
        !b'.untilExhausted) = true
    · rw [if_pos hdone, if_pos hdone]
      exact { h.taken t e with phase_eq := rfl }
    · rw [if_neg hdone] at huntied ⊢
      rw [if_neg hdone]
      exact (h.taken t e).expand hg (.turn hreached hphase hallowed htop haccepted
        (Bool.not_eq_true _ ▸ hdone)) huntied
  · rw [if_neg haccepted, if_neg haccepted]
    exact h.dropped e

/-- A turn of one search is matched by a turn of the other. -/
theorem Lockstep.step (h : Lockstep s s') (hg : t.grammar.WellFormed) (hsame : SameSettings b b')
    (hreached : Reached b' t s') :
    (∃ u u', b.step t s = .next u ∧ b'.step t s' = .next u' ∧
      (Untied u.history → Lockstep u u')) ∨
    ∃ last last', b.step t s = .halt last ∧ b'.step t s' = .halt last' ∧ Lockstep last last' := by
  rw [step_eq b, step_eq b', h.phase_eq, h.pops_eq, hsame.maxPops_eq, h.queue.toList_eq]
  split
  · exact Or.inr ⟨s, s', rfl, rfl, h⟩
  · next hphase =>
    split
    · exact Or.inr ⟨_, _, rfl, rfl, { h with phase_eq := rfl }⟩
    · next hallowed =>
      cases htop : s'.queue.toList.head? with
      | none =>
          refine Or.inr ⟨_, _, rfl, rfl, ?_⟩
          exact { h with
            phase_eq := rfl
            queue := h.queue.pop
            popped_eq := h.popped_push_eq _
            sorted := h.sorted.pop }
      | some e =>
          refine Or.inl ⟨_, _, rfl, rfl, fun huntied => ?_⟩
          exact h.turned hg hsame hreached (Classical.not_not.1 hphase) hallowed htop huntied

/-- The searches take the same edges and commit the same ones to the end. -/
theorem Lockstep.run (hg : t.grammar.WellFormed) (hsame : SameSettings b b') :
    ∀ (turns : Nat) {s s' : State}, Lockstep s s' → Reached b' t s' →
      Untied (b.run t turns s).history →
      Lockstep (b.run t turns s) (b'.run t turns s') ∧
        turnCommits b t turns s = turnCommits b' t turns s'
  | 0, _, _, h, _, _ => ⟨h, rfl⟩
  | turns + 1, s, s', h, hreached, huntied => by
      unfold BestFirst.run turnCommits at *
      rcases h.step hg hsame hreached with
        ⟨u, u', hstep, hstep', hnext⟩ | ⟨last, last', hstep, hstep', hlast⟩
      · rw [hstep] at huntied ⊢
        rw [hstep']
        have hnow := hnext (huntied.mono fun f => offers_run turns u)
        obtain ⟨hrun, hcommits⟩ := Lockstep.run hg hsame turns hnow (hreached.next hstep') huntied
        refine ⟨hrun, ?_⟩
        dsimp only
        rw [hcommits, h.turnCommit?_eq hsame]
      · rw [hstep, hstep']
        exact ⟨hlast, rfl⟩

/-! ## Whole searches -/

/-- If the offers of the search with a scan are untied, a search with the same settings and any
frontier takes the same edges and commits the same ones in the same order.  It ends in the same
phase, with the same chart, outcome and waiting edges. -/
theorem frontiers_in_lockstep {d : Draft} {t : Task} (hbuild : d.build = .ok t.grammar)
    {b b' : BestFirst} (hscan : b.frontier = .scan) (hsame : SameSettings b b')
    (huntied : Untied (b.parse t).2.history) :
    popped (b.parse t).2.history = popped (b'.parse t).2.history ∧
    b.commits t = b'.commits t ∧
    (b.parse t).1.chart = (b'.parse t).1.chart ∧
    (b.parse t).1.outcome = (b'.parse t).1.outcome ∧
    (b.parse t).2.phase = (b'.parse t).2.phase ∧
    (b.parse t).2.queue.toList = (b'.parse t).2.queue.toList ∧
    (b.parse t).1.work.pops = (b'.parse t).1.work.pops ∧
    (b.parse t).1.work.committed = (b'.parse t).1.work.committed ∧
    ((b'.parse t).1.faulty = true → (b.parse t).1.faulty = true) := by
  have hg := wellFormed_of_build hbuild
  generalize hrun : b.run t (turns t b.maxChain) ((b.start t).seed t b.untilExhausted) = last
  generalize hrun' : b'.run t (turns t b'.maxChain) ((b'.start t).seed t b'.untilExhausted) = last'
  rw [history_parse b t hrun] at huntied
  have hseeded : Untied ((b.start t).seed t b.untilExhausted).history :=
    huntied.mono fun f hf => hrun ▸ offers_run _ _ hf
  obtain ⟨hlockstep, hseeds⟩ := lockstep_seed hg hsame hscan hseeded
  obtain ⟨hlast, hturns⟩ := hlockstep.run hg hsame (turns t b.maxChain) .seeded (hrun ▸ huntied)
  rw [hrun, hsame.maxChain_eq, hrun'] at hlast
  have hcommits : b.commits t = b'.commits t := by
    rw [commits, commits, hseeds, hturns, hsame.maxChain_eq]
  obtain ⟨hchart, hfaulty, houtcome⟩ := parse_eq b t hrun
  obtain ⟨hchart', hfaulty', houtcome'⟩ := parse_eq b' t hrun'
  obtain ⟨hwork, hphase⟩ := parse_work_eq b t hrun
  obtain ⟨hwork', hphase'⟩ := parse_work_eq b' t hrun'
  rw [history_parse b t hrun, history_parse b' t hrun', queue_parse b t hrun,
    queue_parse b' t hrun', hchart, hchart', hfaulty, hfaulty', houtcome, houtcome', hwork, hwork',
    hphase, hphase']
  refine ⟨hlast.popped_eq, hcommits, hlast.chart_eq, ?outcome, ?phase, hlast.queue.toList_eq,
    hlast.pops_eq, hlast.committed_eq, hlast.faulty⟩
  case outcome => rw [hlast.chart_eq]
  case phase =>
    unfold finish
    rw [hlast.phase_eq, hlast.chart_eq]

/-- A draft in which the middle one of three words makes edges to both sides. -/
def middleDraft : Draft where
  start := some "S"
  rules := #[.lexical "A" "a" .certain, .lexical "D" "b" .certain, .lexical "C" "c" .certain,
    .unary "B" "D" (.ofRatio true 1 4), .binary "Y" "B" "C" (.ofRatio true 1 2),
    .binary "Z" "A" "B" (.ofRatio true 1 1), .binary "S" "A" "Y" (.ofRatio true 2 1),
    .binary "S" "Z" "C" (.ofRatio true 3 1)]

/-- The grammar of that draft. -/
def middleGrammar : Grammar := middleDraft.build.toOption.get (by decide +kernel)

/-- Three words, rated by scores. -/
def middleTask : Task where
  grammar := middleGrammar
  sentence := .ofWords middleGrammar #["a", "b", "c"]
  merit := .inside

/-- The frontiers make the edges to both sides in different orders, and the searches keep in
step. -/
theorem frontiers_in_lockstep_middle :
    ((BestFirst.new .scan .heuristic .memo).parse middleTask).2.history ≠
      ((BestFirst.new .ghost .heuristic .memo).parse middleTask).2.history ∧
    (BestFirst.new .scan .heuristic .memo).commits middleTask =
      (BestFirst.new .ghost .heuristic .memo).commits middleTask ∧
    ((BestFirst.new .ghost .heuristic .memo).parse middleTask).1.outcome = .parsed := by
  have hparsed : ((BestFirst.new .scan .heuristic .memo).parse middleTask).1.outcome = .parsed := by
    decide +kernel
  have hsame : SameSettings (.new .scan .heuristic .memo) (.new .ghost .heuristic .memo) :=
    ⟨rfl, rfl, rfl, rfl, rfl⟩
  have huntied : Untied ((BestFirst.new .scan .heuristic .memo).parse middleTask).2.history := by
    decide +kernel
  obtain ⟨-, hcommits, -, houtcome, -⟩ :=
    frontiers_in_lockstep (t := middleTask) (Draft.build_eq_ok _) rfl hsame huntied
  exact ⟨by decide +kernel, hcommits, houtcome.symm.trans hparsed⟩

end BestFirst
end BestParse
