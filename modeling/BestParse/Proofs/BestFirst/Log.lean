import BestParse.Proofs.Chart.Log
import BestParse.Proofs.BestFirst.Halting
import BestParse.Proofs.BestFirst.Memo

/-!
# The log of a search

The history of a search says which edges were taken out of the queue (`popped`), and not what
became of them.  The edges that were committed are `commits`: for each word the lexical edges
that its seeding accepts, and for each turn the edge at the head of the queue if the commit
rule accepts it.

This is the log of the run: replaying it gives the chart, and it is as long as the search says
(`Logged`).  An invariant of a log and the state it leads to is carried from the seeding to the
end of the search by `parse_log`, which says nothing about how many turns there are.  With the
rule that compares scores, the log is one of improving commits (`leads_parse`).
-/

namespace BestParse
namespace BestFirst

open Chart

variable {b : BestFirst} {t : Task} {s s' last : State} {e : Edge}

/-! ## Edges taken -/

/-- The edges that were taken out of the queue, in order. -/
def popped (history : Array QueueEvent) : List Edge :=
  history.toList.filterMap fun
    | .popped taken => taken
    | _ => none

theorem popped_push (history : Array QueueEvent) (event : QueueEvent) :
    popped (history.push event) = popped history ++
      match event with
      | .popped (some e) => [e]
      | _ => [] := by
  rw [popped, Array.toList_push, List.filterMap_append]
  cases event with
  | pushed e => rfl
  | declined e => rfl
  | popped taken => cases taken <;> rfl

namespace State

/-- Offering an edge commits and takes none. -/
theorem log_push (t : Task) (s : State) (e : Edge) :
    popped (s.push t e).history = popped s.history ∧
      (s.push t e).work.committed = s.work.committed := by
  unfold push
  dsimp only
  split
  · exact ⟨(popped_push _ _).trans (List.append_nil _), rfl⟩
  · exact ⟨(popped_push _ _).trans (List.append_nil _), rfl⟩

theorem log_expand (t : Task) (s : State) (target : Target) (effect : Effect) :
    popped (s.expand t target effect).history = popped s.history ∧
      (s.expand t target effect).work.committed = s.work.committed :=
  ⟨pushAll_keeps (fun s => popped s.history) (fun s e => (log_push t s e).1) _ _,
    pushAll_keeps (fun s => s.work.committed) (fun s e => (log_push t s e).2) _ _⟩

/-- Seeding a word takes no edge and commits its seeds. -/
theorem log_seedWord (t : Task) (s : State) (i : Nat) :
    (s.seedWord t i).chart = s.chart.replay t.grammar
        (s.chart.seedEdges t.grammar i (t.grammar.lexicalWith (t.sentence.token? i))) ∧
      popped (s.seedWord t i).history = popped s.history ∧
      (s.seedWord t i).work.committed = s.work.committed +
        (s.chart.seedEdges t.grammar i (t.grammar.lexicalWith (t.sentence.token? i))).length := by
  obtain ⟨hchart, hsize⟩ := seed_log t.grammar s.chart (t.sentence.token? i) i
  rw [← hchart, ← hsize]
  unfold seedWord
  dsimp only
  rw [← Array.foldl_toList]
  refine List.foldlRecOn (motive := fun s' : State => s'.chart = _ ∧ popped s'.history = _ ∧
    s'.work.committed = _) _ _ ⟨rfl, rfl, rfl⟩ fun s' h nt _ => ?_
  obtain ⟨hpopped, hcommitted⟩ := log_expand t s' ⟨⟨i, i + 1, nt⟩, 0⟩ ⟨true, true⟩
  exact ⟨(chart_expand t s' _ _).trans h.1, hpopped.trans h.2.1, hcommitted.trans h.2.2⟩

end State

/-! ## Edges committed -/

/-- The edges that the seeding of the first words commits. -/
def seedCommits (b : BestFirst) (t : Task) (words : Nat) : List Edge :=
  (List.range words).flatMap fun i =>
    ((List.range i).foldl (fun s i => s.seedWord t i) (b.start t)).chart.seedEdges t.grammar i
      (t.grammar.lexicalWith (t.sentence.token? i))

/-- The edge that a turn commits, if it commits one. -/
def turnCommit? (b : BestFirst) (s : State) : Option Edge :=
  s.queue.toList.head?.filter (b.rule.accepts s.chart)

theorem turnCommit?_of_head (h : s.queue.toList.head? = some e) :
    b.turnCommit? s = if b.rule.accepts s.chart e then some e else none := by
  rw [turnCommit?, h, Option.filter_some]

/-- The edges that at most so many turns commit. -/
def turnCommits (b : BestFirst) (t : Task) : (turns : Nat) → State → List Edge
  | 0, _ => []
  | turns + 1, s =>
    match b.step t s with
    | .next s' => (b.turnCommit? s).toList ++ turnCommits b t turns s'
    | .halt _ => []

/-- The edges that a search commits, in order. -/
def commits (b : BestFirst) (t : Task) : List Edge :=
  seedCommits b t t.sentence.size ++
    turnCommits b t (turns t b.maxChain) ((b.start t).seed t b.untilExhausted)

theorem seedCommits_succ (b : BestFirst) (t : Task) (i : Nat) :
    seedCommits b t (i + 1) = seedCommits b t i ++
      ((List.range i).foldl (fun s i => s.seedWord t i) (b.start t)).chart.seedEdges t.grammar i
        (t.grammar.lexicalWith (t.sentence.token? i)) := by
  rw [seedCommits, List.range_succ, List.flatMap_append, List.flatMap_singleton]
  rfl

/-- What is seeded is a lexical production over one of the words. -/
theorem mem_seedCommits {words : Nat} {e : Edge} (h : e ∈ seedCommits b t words) :
    ∃ id i, i < words ∧ id ∈ t.grammar.lexicalWith (t.sentence.token? i) ∧
      e = Edge.lexical t.grammar id i := by
  obtain ⟨i, hi, he⟩ := List.mem_flatMap.1 h
  obtain ⟨id, hid, rfl⟩ := List.mem_map.1 ((seedEdges_sublist _ _ _ _).subset he)
  exact ⟨id, i, List.mem_range.1 hi, hid, rfl⟩

/-- What a turn takes, and what it commits of that. -/
theorem log_next (h : b.step t s = .next s') :
    ∃ e, s.queue.toList.head? = some e ∧ popped s'.history = popped s.history ++ [e] ∧
      s'.chart = s.chart.replay t.grammar (b.turnCommit? s).toList ∧
      s'.work.committed = s.work.committed + (b.turnCommit? s).toList.length := by
  obtain ⟨-, -, e, htop, rfl⟩ := next_iff.1 h
  have hpopped : popped (s.history.push (.popped (some e))) = popped s.history ++ [e] :=
    popped_push _ _
  refine ⟨e, htop, ?_⟩
  rw [turnCommit?_of_head htop]
  unfold turned
  split
  · split
    · exact ⟨hpopped, rfl, rfl⟩
    · obtain ⟨hexpanded, hcommitted⟩ :=
        State.log_expand t (s.taken t e) e.target (s.chart.commit t.grammar e).1
      exact ⟨hexpanded.trans hpopped, State.chart_expand t _ _ _, hcommitted⟩
  · exact ⟨hpopped, rfl, rfl⟩

/-- The turn that ends a search takes and commits nothing. -/
theorem log_halt (h : b.step t s = .halt last) :
    popped last.history = popped s.history ∧ last.queue.toList = s.queue.toList ∧
      last.work.committed = s.work.committed := by
  rcases halt_cases h with ⟨-, rfl⟩ | ⟨-, rfl⟩ | ⟨hempty, rfl⟩
  · exact ⟨rfl, rfl, rfl⟩
  · exact ⟨rfl, rfl, rfl⟩
  · refine ⟨(popped_push _ _).trans (List.append_nil _), ?_, rfl⟩
    rw [EdgeQueue.toList_pop, hempty]
    rfl

/-! ## The log leads to the state -/

/-- The state is where the log leads. -/
structure Logged (t : Task) (chain : Nat) (log : List Edge) (s : State) : Prop where
  chart_eq : s.chart = (Chart.empty t.grammar t.sentence.size chain).replay t.grammar log
  committed_eq : s.work.committed = log.length
  pops_eq : s.work.pops = (popped s.history).length

theorem logged_words (b : BestFirst) (t : Task) : ∀ words,
    Logged t b.maxChain (seedCommits b t words)
      ((List.range words).foldl (fun s i => s.seedWord t i) (b.start t))
  | 0 => ⟨rfl, rfl, rfl⟩
  | words + 1 => by
      have hbefore := logged_words b t words
      obtain ⟨hchart, hpopped, hcommitted⟩ := State.log_seedWord t
        ((List.range words).foldl (fun s i => s.seedWord t i) (b.start t)) words
      rw [seedCommits_succ, List.range_succ, List.foldl_append, List.foldl_cons, List.foldl_nil]
      constructor
      · rw [hchart, replay_append, ← hbefore.chart_eq]
      · rw [hcommitted, List.length_append, hbefore.committed_eq]
      · rw [hpopped, State.pops_seedWord, hbefore.pops_eq]

theorem Logged.next {chain : Nat} {log : List Edge} (h : Logged t chain log s)
    (hstep : b.step t s = .next s') :
    Logged t chain (log ++ (b.turnCommit? s).toList) s' := by
  obtain ⟨e, -, hpopped, hchart, hcommitted⟩ := log_next hstep
  constructor
  · rw [hchart, replay_append, ← h.chart_eq]
  · rw [hcommitted, List.length_append, h.committed_eq]
  · rw [pops_next hstep, hpopped, List.length_append, h.pops_eq]
    rfl

/-! ## Whole searches -/

/-- An invariant of a log and its state is carried along by the turns. -/
theorem run_log {I : List Edge → State → Prop}
    (hnext : ∀ log s s', I log s → b.step t s = .next s' →
      I (log ++ (b.turnCommit? s).toList) s') :
    ∀ (turns : Nat) (log : List Edge) (s : State), I log s →
      ∃ s', I (log ++ turnCommits b t turns s) s' ∧
        (b.run t turns s = s' ∨ b.step t s' = .halt (b.run t turns s))
  | 0, log, s, hI => ⟨s, (List.append_nil log).symm ▸ hI, Or.inl rfl⟩
  | turns + 1, log, s, hI => by
      unfold turnCommits run
      cases hstep : b.step t s with
      | next s' =>
          dsimp only
          rw [← List.append_assoc]
          exact run_log hnext turns _ s' (hnext log s s' hI hstep)
      | halt last => exact ⟨s, (List.append_nil log).symm ▸ hI, Or.inr hstep⟩

theorem queue_parse (b : BestFirst) (t : Task)
    (hs : b.run t (turns t b.maxChain) ((b.start t).seed t b.untilExhausted) = s) :
    (b.parse t).2.queue = s.queue := by
  rw [parse, search, hs]
  rfl

/-- An invariant of a log and its state holds of the log of a search and of a state with the
chart, the queue, the edges taken and the counts that the search leaves. -/
theorem parse_log (b : BestFirst) (t : Task) {I : List Edge → State → Prop}
    (hseed : I (seedCommits b t t.sentence.size) ((b.start t).seed t b.untilExhausted))
    (hnext : ∀ log s s', I log s → b.step t s = .next s' →
      I (log ++ (b.turnCommit? s).toList) s') :
    ∃ s, I (b.commits t) s ∧ (b.parse t).1.chart = s.chart ∧
      (b.parse t).2.queue.toList = s.queue.toList ∧
      popped (b.parse t).2.history = popped s.history ∧
      (b.parse t).1.work.committed = s.work.committed ∧
      (b.parse t).1.work.pops = s.work.pops := by
  obtain ⟨s, hI, hended⟩ := run_log hnext (turns t b.maxChain) _ _ hseed
  rw [← commits] at hI
  generalize hrun : b.run t (turns t b.maxChain) _ = last at hended
  refine ⟨s, hI, ?_⟩
  rw [(parse_eq b t hrun).1, queue_parse b t hrun, history_parse b t hrun,
    (parse_work_eq b t hrun).1]
  rcases hended with rfl | hhalt
  · exact ⟨rfl, rfl, rfl, rfl, rfl⟩
  · obtain ⟨hpopped, hwaits, hcommitted⟩ := log_halt hhalt
    exact ⟨(step_halt hhalt).1, hwaits, hpopped, hcommitted, (halt_keeps hhalt).2⟩

/-- Replaying the commits of a search gives its chart, and the counts it reports are those of
the edges committed and taken. -/
theorem replay_commits (b : BestFirst) (t : Task) :
    (b.parse t).1.chart =
        (Chart.empty t.grammar t.sentence.size b.maxChain).replay t.grammar (b.commits t) ∧
      (b.parse t).1.work.committed = (b.commits t).length ∧
      (b.parse t).1.work.pops = (popped (b.parse t).2.history).length := by
  have hwords := logged_words b t t.sentence.size
  obtain ⟨s, hlogged, hchart, -, hpopped, hcommitted, hpops⟩ := parse_log b t
    (I := Logged t b.maxChain) ⟨hwords.chart_eq, hwords.committed_eq, hwords.pops_eq⟩
    fun _ _ _ h hstep => h.next hstep
  rw [hpopped]
  exact ⟨hchart.trans hlogged.chart_eq, hcommitted.trans hlogged.committed_eq,
    hpops.trans hlogged.pops_eq⟩

/-! ## Stages of a search -/

theorem turnCommits_mono : ∀ {n m : Nat} (_ : n ≤ m) (s : State),
    turnCommits b t n s <+: turnCommits b t m s
  | 0, _, _, _ => List.nil_prefix
  | n + 1, m + 1, h, s => by
      unfold turnCommits
      cases b.step t s with
      | next s' =>
          exact (List.prefix_append_right_inj _).2
            (turnCommits_mono (Nat.le_of_succ_le_succ h) s')
      | halt last => exact List.prefix_rfl

/-- The log leads through the chart that is there after some of the words. -/
theorem isStage_words (b : BestFirst) {i : Nat} (hi : i ≤ t.sentence.size) :
    (Chart.empty t.grammar t.sentence.size b.maxChain).IsStage t.grammar (b.commits t)
      ((List.range i).foldl (fun s i => s.seedWord t i) (b.start t)).chart := by
  obtain ⟨rest, hwords⟩ := range_mono hi
  rw [(logged_words b t i).chart_eq]
  refine isStage_of_prefix (List.IsPrefix.trans ?_ (List.prefix_append _ _))
  rw [seedCommits, seedCommits, ← hwords, List.flatMap_append]
  exact List.prefix_append _ _

/-- The log leads through the chart that is there after some of the turns. -/
theorem isStage_run (b : BestFirst) {n : Nat} (hn : n ≤ turns t b.maxChain) :
    (Chart.empty t.grammar t.sentence.size b.maxChain).IsStage t.grammar (b.commits t)
      (b.run t n ((b.start t).seed t b.untilExhausted)).chart := by
  have hwords := logged_words b t t.sentence.size
  obtain ⟨s, hlogged, hended⟩ := run_log (I := Logged t b.maxChain)
    (fun _ _ _ h hstep => h.next hstep) n (seedCommits b t t.sentence.size)
    ((b.start t).seed t b.untilExhausted)
    ⟨hwords.chart_eq, hwords.committed_eq, hwords.pops_eq⟩
  have hchart : (b.run t n ((b.start t).seed t b.untilExhausted)).chart = s.chart := by
    rcases hended with heq | hhalt
    · rw [heq]
    · exact (step_halt hhalt).1
  rw [hchart, hlogged.chart_eq]
  exact isStage_of_prefix ((List.prefix_append_right_inj _).2 (turnCommits_mono hn _))

/-! ## Logs of improving commits -/

section

variable (hg : t.grammar.WellFormed)

include hg

theorem leads_words (b : BestFirst) : ∀ words ≤ t.sentence.size,
    Leads t b.maxChain (Chart.empty t.grammar t.sentence.size b.maxChain) 0
      (seedCommits b t words)
      ((List.range words).foldl (fun s i => s.seedWord t i) (b.start t)).chart
      ((List.range words).foldl (fun s i => s.seedWord t i) (b.start t)).work.committed
  | 0, _ => Leads.refl Course.start 0
  | words + 1, hle => by
      have hbefore := leads_words b words (Nat.le_of_succ_le hle)
      obtain ⟨-, hcourse⟩ := sowing_words hg (fun _ _ haccepts => haccepts) b words
        (Nat.le_of_succ_le hle)
      rw [seedCommits_succ, List.range_succ, List.foldl_append, List.foldl_cons, List.foldl_nil]
      generalize (List.range words).foldl (fun s i => s.seedWord t i) (b.start t) = s
        at hbefore hcourse ⊢
      obtain ⟨hchart, -, hcommitted⟩ := State.log_seedWord t s words
      obtain ⟨hseeded, hsize⟩ := seed_log t.grammar s.chart (t.sentence.token? words) words
      rw [hchart, hcommitted, ← hseeded, ← hsize]
      exact hbefore.trans (leads_seedEdges hcourse hg hle _)

theorem leads_next (hrule : b.rule = .inside) (hsteady : Steady t b.maxChain s)
    (hcourse : OnCourse t b.maxChain (fun c e => c.accepts e = true) s)
    (hstep : b.step t s = .next s') :
    OnCourse t b.maxChain (fun c e => c.accepts e = true) s' ∧
      Leads t b.maxChain s.chart s.work.committed (b.turnCommit? s).toList s'.chart
        s'.work.committed := by
  have hafter := hcourse.next hg hsteady (fun e _ haccepts => by
    rw [hrule] at haccepts
    exact haccepts) hstep
  obtain ⟨e, -, -, hchart, hcommitted⟩ := log_next hstep
  exact ⟨hafter, Leads.step hcourse hafter hchart hcommitted⟩

/-- With the rule that compares scores, the log of a search leads from the empty chart to the
chart that the search leaves. -/
theorem leads_parse (b : BestFirst) (hrule : b.rule = .inside) :
    Leads t b.maxChain (Chart.empty t.grammar t.sentence.size b.maxChain) 0 (b.commits t)
      (b.parse t).1.chart (b.parse t).1.work.committed := by
  obtain ⟨s, ⟨hleads, -, -⟩, hchart, -, -, hcommitted, -⟩ := parse_log b t
    (I := fun log s => Leads t b.maxChain (Chart.empty t.grammar t.sentence.size b.maxChain) 0 log
        s.chart s.work.committed ∧
      Steady t b.maxChain s ∧ OnCourse t b.maxChain (fun c e => c.accepts e = true) s)
    ⟨leads_words hg b _ (Nat.le_refl _), steady_seed hg b,
      onCourse_seed hg (fun _ _ haccepts => haccepts) b⟩
    fun log s s' ⟨hleads, hsteady, hcourse⟩ hstep => by
      obtain ⟨hcourse', hturn⟩ := leads_next hg hrule hsteady hcourse hstep
      exact ⟨hleads.trans hturn, (steady_next hg hsteady hstep).1, hcourse'⟩
  rw [hchart, hcommitted]
  exact hleads

end

end BestFirst
end BestParse
