import BestParse.Proofs.BestFirst.Termination

/-!
# How a search ends

A search ends, whatever the figure of merit (`search_halts`).  Here is what it ends with: the
edges it took are its turns, and its phase tells whether the root is populated.

While a search goes on it is searching.  It stops being so when the root is populated, and an
edge is never taken back, so the phase agrees with the chart from then on (`Phased`).  A search
that runs out of edges reads its phase off the chart (`phase_finish`).
-/

namespace BestParse
namespace BestFirst

open Chart

variable {b : BestFirst} {t : Task} {s s' last : State}

/-! ## Edges taken -/

namespace State

theorem pops_push (t : Task) (s : State) (e : Edge) : (s.push t e).work.pops = s.work.pops := by
  unfold push
  dsimp only
  split <;> rfl

theorem pops_expand (t : Task) (s : State) (target : Target) (effect : Effect) :
    (s.expand t target effect).work.pops = s.work.pops :=
  pushAll_keeps (fun s => s.work.pops) (pops_push t) _ _

theorem pops_seedWord (t : Task) (s : State) (i : Nat) :
    (s.seedWord t i).work.pops = s.work.pops := by
  unfold seedWord
  dsimp only
  rw [← Array.foldl_toList]
  refine List.foldlRecOn (motive := fun s' => s'.work.pops = s.work.pops) _ _ ?_
    fun s' h _ _ => (pops_expand t s' _ _).trans h
  rfl

theorem pops_seed (t : Task) (untilExhausted : Bool) (s : State) :
    (s.seed t untilExhausted).work.pops = s.work.pops := by
  unfold seed
  exact List.foldlRecOn (motive := fun s' => s'.work.pops = s.work.pops) (List.range _) _ rfl
    fun s' h i _ => (pops_seedWord t s' i).trans h

end State

/-- A turn after which the search goes on takes one edge. -/
theorem pops_next (h : b.step t s = .next s') : s'.work.pops = s.work.pops + 1 := by
  obtain ⟨-, -, e, -, rfl⟩ := next_iff.1 h
  unfold turned
  split
  · split
    · rfl
    · exact State.pops_expand t _ _ _
  · rfl

/-! ## The phase -/

/-- The search goes on, or the root is populated. -/
def Phased (t : Task) (s : State) : Prop :=
  s.phase = .searching ∨ s.phase = .done ∧ s.chart.isComplete t.grammar = true

theorem phased_seed (t : Task) (untilExhausted : Bool) (s : State) :
    Phased t (s.seed t untilExhausted) := by
  unfold State.seed
  dsimp only
  split
  · next hdone => exact Or.inr ⟨rfl, (Bool.and_eq_true_iff.1 hdone).1⟩
  · exact Or.inl rfl

theorem phased_next (h : b.step t s = .next s') : Phased t s' := by
  obtain ⟨-, e, -, hmoves⟩ := step_next h
  cases hmoves with
  | skip declined chart_eq frontier_eq queue_eq phase_eq faulty_eq => exact Or.inl phase_eq
  | complete accepted completes stops chart_eq frontier_eq queue_eq phase_eq faulty_eq =>
      exact Or.inr ⟨phase_eq, chart_eq ▸ completes⟩
  | expand before state_eq accepted continues chart_eq frontier_eq queue_eq phase_eq faulty_eq =>
      rw [state_eq]
      exact Or.inl ((State.phase_expand t before _ _).trans phase_eq)

/-- The turn that ends the search takes no edge and leaves the phase. -/
theorem halt_keeps (h : b.step t s = .halt last) :
    last.phase = s.phase ∧ last.work.pops = s.work.pops := by
  rcases halt_cases h with ⟨-, rfl⟩ | ⟨-, rfl⟩ | ⟨-, rfl⟩ <;> exact ⟨rfl, rfl⟩

/-- The phase that is reported tells whether the root is populated. -/
theorem phase_finish (h : Phased t s) :
    (finish t s).phase = if s.chart.isComplete t.grammar then .done else .exhausted := by
  unfold finish
  dsimp only
  rcases h with hsearching | ⟨hdone, hcomplete⟩
  · rw [hsearching]
    rfl
  · rw [hdone, hcomplete]
    rfl

/-- What a parse reports of its work and leaves as its phase is where the search ended. -/
theorem parse_work_eq (b : BestFirst) (t : Task)
    (hlast : b.run t (turns t b.maxChain) ((b.start t).seed t b.untilExhausted) = last) :
    (b.parse t).1.work = last.work ∧ (b.parse t).2.phase = (finish t last).phase := by
  rw [parse, search, hlast]
  exact ⟨rfl, rfl⟩

/-! ## The end of the loop -/

/-- The states of a search after a number of turns. -/
def After (b : BestFirst) (t : Task) : Nat → State → Prop :=
  Loop.After (fun s s' => b.step t s = .next s') ((b.start t).seed t b.untilExhausted)

theorem After.pops (h : After b t n s) : s.work.pops = n := by
  refine Loop.After.keeps (I := fun n s => s.work.pops = n) ?_ (fun n s s' hn hstep => ?_) h
  · rw [State.pops_seed]
    rfl
  · rw [pops_next hstep, hn]

theorem After.phased (h : After b t n s) : Phased t s :=
  Loop.After.keeps (I := fun _ s => Phased t s) (phased_seed t _ _)
    (fun _ _ _ _ hstep => phased_next hstep) h

/-- A search takes finitely many edges, whatever the figure of merit, the frontier, the commit
rule and the queue: its turns come to a last one, and the parse reports the state there.  It is
then done if the root is populated and exhausted otherwise.  Without a bound on the edges taken
it stops only when it is done or no edge is left. -/
theorem parse_halts {d : Draft} {t : Task} (hbuild : d.build = .ok t.grammar) (b : BestFirst) :
    ∃ n s last, After b t n s ∧ b.step t s = .halt last ∧ (∀ m s', After b t m s' → m ≤ n) ∧
      b.search t = finish t last ∧ (b.parse t).1.work.pops = n ∧
      (b.maxPops = 0 → s.phase = .done ∨ s.queue.toList = []) ∧
      (b.parse t).2.phase =
        if (b.parse t).1.chart.isComplete t.grammar then .done else .exhausted := by
  obtain ⟨s, -, ⟨n, hafter⟩, hhalt⟩ := search_halts (wellFormed_of_build hbuild) b
    (I := fun s => ∃ n, After b t n s) ⟨0, .first⟩
    fun s s' _ ⟨n, hafter⟩ hstep => ⟨n + 1, hafter.turn hstep⟩
  generalize hrun : b.run t (turns t b.maxChain) _ = last at hhalt
  have hsearch : b.search t = finish t last := by rw [search, hrun]
  obtain ⟨hchart, -, hended⟩ := step_halt hhalt
  obtain ⟨hphase, hpops⟩ := halt_keeps hhalt
  have hphased : Phased t last := by
    unfold Phased
    rw [hphase, hchart]
    exact hafter.phased
  obtain ⟨hreport, -, -⟩ := parse_eq b t hrun
  obtain ⟨hwork, hleft⟩ := parse_work_eq b t hrun
  rw [hwork, hreport, hleft]
  exact ⟨n, s, last, hafter, hhalt, fun _ _ => Loop.After.le_of_halt (runs b t) hafter hhalt, hsearch,
    hpops.trans hafter.pops,
    fun hzero => (hended hzero).imp_left fun hstopped => (hafter.phased.resolve_left hstopped).1,
    phase_finish hphased⟩

/-- With figures that are not numbers nothing beyond the words is committed, and the search
runs out of edges. -/
theorem parse_halts_circular :
    (∃ n, ∀ m s, After (.new .ghost .heuristic .memo)
      { circularTask with merit := { score := fun _ _ => .nan } } m s → m ≤ n) ∧
    ((BestFirst.new .ghost .heuristic .memo).parse
      { circularTask with merit := { score := fun _ _ => .nan } }).2.phase = .exhausted := by
  obtain ⟨n, s, last, -, -, hbound, -, -, -, hphase⟩ := parse_halts
    (t := { circularTask with merit := { score := fun _ _ => .nan } }) circularDraft_builds
    (.new .ghost .heuristic .memo)
  have hroot : ((BestFirst.new .ghost .heuristic .memo).parse
      { circularTask with merit := { score := fun _ _ => .nan } }).1.chart.isComplete
        circularTask.grammar = false := by decide +kernel
  rw [hroot] at hphase
  exact ⟨⟨n, hbound⟩, hphase⟩

end BestFirst
end BestParse
