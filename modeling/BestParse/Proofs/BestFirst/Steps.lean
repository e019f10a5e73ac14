import BestParse.Search.BestFirst.Basic
import BestParse.Proofs.Loop
import BestParse.Proofs.Chart.Extension
import BestParse.Proofs.BestFirst.Queue
import BestParse.Proofs.BestFirst.Frontier

/-!
# What the steps of best-first search do

The parts of a state that matter are its chart, its frontier, its queue and its phase;
the counts and the history are carried along.  This module says once what each
operation does to these parts, and no later proof opens the operations.

`step_eq` writes a turn as a case distinction, and the two inversions follow: `next_iff` for a
turn that takes an edge and `halt_cases` for the turn that ends the search.  In `step_next` an
edge is taken from the queue and either skipped, or committed and found to complete the root,
or committed and expanded.
`seed_induction` and `runs` are the two loops of a search, the seeding and the turns.
-/

namespace BestParse
namespace BestFirst

open Chart

/-! ## Candidates -/

theorem mem_unaryCandidates {t : Task} (hg : t.grammar.WellFormed) {c : Chart} {τ : Target}
    {e : Edge} :
    e ∈ unaryCandidates t c τ ↔
      τ.layer < c.maxChain ∧ t.limits.unaryOpen τ.slot.start τ.slot.stop = true ∧
      ∃ id x, id < t.grammar.numProductions ∧
        (t.grammar.production id).expansion = .unary τ.slot.symbol ∧
        t.limits.allows t.grammar τ.slot.start τ.slot.stop
          (t.grammar.production id).parent = true ∧
        Score.extend (t.grammar.production id).logprob (c.scoreAt τ) = some x ∧
        Edge.unary t.grammar id τ.slot.start τ.slot.stop (τ.layer + 1) x = e := by
  obtain ⟨⟨start, stop, symbol⟩, layer⟩ := τ
  unfold unaryCandidates
  dsimp only
  split
  · next hopen =>
    rw [Bool.and_eq_true, decide_eq_true_iff] at hopen
    simp only [List.mem_filterMap, Option.ite_none_right_eq_some, Option.map_eq_some_iff,
      hg.mem_unaryWithChild]
    constructor
    · rintro ⟨id, ⟨hid, hexp⟩, hallows, x, hx, he⟩
      exact ⟨hopen.1, hopen.2, id, x, hid, hexp, hallows, hx, he⟩
    · rintro ⟨-, -, id, x, hid, hexp, hallows, hx, he⟩
      exact ⟨id, ⟨hid, hexp⟩, hallows, x, hx, he⟩
  · next hclosed =>
    refine ⟨nofun, ?_⟩
    rintro ⟨hlayer, hopen, -⟩
    exact absurd (Bool.and_eq_true_iff.2 ⟨decide_eq_true hlayer, hopen⟩) hclosed

theorem edge?_eq_some {t : Task} {c : Chart} {p : Place} {e : Edge} :
    p.edge? t c = some e ↔
      t.limits.isOpen p.start p.stop = true ∧
      (t.limits.splits p.start p.stop).contains p.mid = true ∧
      t.limits.allows t.grammar p.start p.stop (t.grammar.production p.production).parent = true ∧
      ∃ l r x, (t.grammar.production p.production).expansion = .binary l r ∧
        Score.combine (t.grammar.production p.production).logprob (c.bestAt ⟨p.start, p.mid, l⟩)
          (c.bestAt ⟨p.mid, p.stop, r⟩) = some x ∧
        Edge.binary t.grammar p.production p.start p.mid p.stop x = e := by
  unfold Place.edge?
  dsimp only
  rw [Option.ite_none_right_eq_some, Bool.and_eq_true, Bool.and_eq_true, and_assoc, and_assoc]
  refine and_congr_right fun _ => and_congr_right fun _ => and_congr_right fun _ => ?_
  cases hexp : (t.grammar.production p.production).expansion with
  | binary l r =>
      dsimp only
      rw [Option.map_eq_some_iff]
      constructor
      · rintro ⟨x, hx, he⟩
        exact ⟨l, r, x, rfl, hx, he⟩
      · rintro ⟨l', r', x, heq, hx, he⟩
        cases heq
        exact ⟨x, hx, he⟩
  | unary child => exact ⟨nofun, fun ⟨_, _, _, h, _⟩ => nomatch h⟩
  | lexical word => exact ⟨nofun, fun ⟨_, _, _, h, _⟩ => nomatch h⟩

/-- The places that an expansion looks at. -/
def reach (t : Task) (s : State) (target : Target) (effect : Effect) : List Place :=
  if effect.raised then s.frontier.places t.grammar s.chart.size target.slot else []

/-- The edges that an expansion makes. -/
def candidates (t : Task) (s : State) (target : Target) (effect : Effect) : List Edge :=
  unaryCandidates t s.chart target ++ (reach t s target effect).filterMap (Place.edge? t s.chart)

/-! ## Offering and expanding -/

/-- The queue after some edges were rated and offered. -/
def offered (t : Task) (c : Chart) (q : EdgeQueue) (es : List Edge) : EdgeQueue :=
  es.foldl (fun q e => (q.push (e.withFom (t.merit.score e c))).2) q

namespace State

theorem push_eq (t : Task) (s : State) (e : Edge) :
    (s.push t e).chart = s.chart ∧ (s.push t e).frontier = s.frontier ∧
      (s.push t e).phase = s.phase ∧
      (s.push t e).queue = (s.queue.push (e.withFom (t.merit.score e s.chart))).2 ∧
      (s.push t e).faulty = (s.faulty || !t.merit.covers e) := by
  unfold push
  dsimp only
  split
  · next q hpush => exact ⟨rfl, rfl, rfl, congrArg Prod.snd hpush.symm, rfl⟩
  · next q hpush => exact ⟨rfl, rfl, rfl, congrArg Prod.snd hpush.symm, rfl⟩

/-- What no offer changes, no run of offers changes. -/
theorem pushAll_keeps {α : Type} {t : Task} (part : State → α)
    (hpush : ∀ s e, part (s.push t e) = part s) :
    ∀ (es : List Edge) (s : State), part (es.foldl (fun s e => s.push t e) s) = part s
  | [], _ => rfl
  | e :: es, s => (pushAll_keeps part hpush es (s.push t e)).trans (hpush s e)

theorem pushAll_eq (t : Task) :
    ∀ (es : List Edge) (s : State),
      (es.foldl (fun s e => s.push t e) s).chart = s.chart ∧
      (es.foldl (fun s e => s.push t e) s).frontier = s.frontier ∧
      (es.foldl (fun s e => s.push t e) s).phase = s.phase ∧
      (es.foldl (fun s e => s.push t e) s).queue = offered t s.chart s.queue es ∧
      (es.foldl (fun s e => s.push t e) s).faulty =
        (s.faulty || es.any fun e => !t.merit.covers e)
  | [], s => ⟨rfl, rfl, rfl, rfl, (Bool.or_false _).symm⟩
  | e :: es, s => by
      obtain ⟨hchart, hfrontier, hphase, hqueue, hfaulty⟩ := push_eq t s e
      obtain ⟨hchart', hfrontier', hphase', hqueue', hfaulty'⟩ := pushAll_eq t es (s.push t e)
      refine ⟨hchart'.trans hchart, hfrontier'.trans hfrontier, hphase'.trans hphase, ?_, ?_⟩
      · refine hqueue'.trans ?_
        rw [hchart, hqueue]
        rfl
      · refine hfaulty'.trans ?_
        rw [hfaulty, List.any_cons, Bool.or_assoc]

section

variable (t : Task) (s : State) (target : Target) (effect : Effect)

theorem chart_expand : (s.expand t target effect).chart = s.chart :=
  (pushAll_eq t _ _).1

theorem frontier_expand : (s.expand t target effect).frontier =
    if effect.raised && effect.isNew then s.frontier.register t.grammar target.slot
    else s.frontier :=
  (pushAll_eq t _ _).2.1

theorem phase_expand : (s.expand t target effect).phase = s.phase :=
  (pushAll_eq t _ _).2.2.1

theorem queue_expand : (s.expand t target effect).queue =
    offered t s.chart s.queue (candidates t s target effect) :=
  (pushAll_eq t _ _).2.2.2.1

theorem faulty_expand : (s.expand t target effect).faulty =
    (s.faulty || (reach t s target effect).any (Place.isFaulty t.limits) ||
      (candidates t s target effect).any fun e => !t.merit.covers e) :=
  (pushAll_eq t _ _).2.2.2.2

end

end State

/-! ## Turns -/

/-- The state after an edge is taken and committed, before it is expanded. -/
def State.taken (t : Task) (s : State) (e : Edge) : State :=
  { s with
    chart := s.chart.store t.grammar e
    queue := s.queue.pop.2
    history := s.history.push (.popped (some e))
    work := { s.work with pops := s.work.pops + 1, committed := s.work.committed + 1 } }

/-- The state after an edge is taken and not committed. -/
def State.dropped (s : State) (e : Edge) : State :=
  { s with
    queue := s.queue.pop.2
    history := s.history.push (.popped (some e))
    work := { s.work with pops := s.work.pops + 1 } }

/-- What a turn makes of the edge it takes. -/
def turned (b : BestFirst) (t : Task) (s : State) (e : Edge) : State :=
  if b.rule.accepts s.chart e then
    if (s.chart.store t.grammar e).isComplete t.grammar && !b.untilExhausted then
      { s.taken t e with phase := .done }
    else (s.taken t e).expand t e.target (s.chart.commit t.grammar e).1
  else s.dropped e

theorem step_eq (b : BestFirst) (t : Task) (s : State) :
    b.step t s =
      if s.phase ≠ .searching then .halt s
      else if 0 < b.maxPops ∧ b.maxPops ≤ s.work.pops then
        .halt { s with notices := s.notices.push (.edgesStopped s.work.pops) }
      else match s.queue.toList.head? with
        | none => .halt { s with queue := s.queue.pop.2, history := s.history.push (.popped none) }
        | some e => .next (b.turned t s e) := by
  unfold step
  dsimp only
  rw [EdgeQueue.fst_pop]
  cases s.queue.toList.head? with
  | none => rfl
  | some e => rfl

/-- A search goes on after a turn that takes an edge. -/
theorem next_iff {b : BestFirst} {t : Task} {s s' : State} :
    b.step t s = .next s' ↔
      s.phase = .searching ∧ ¬ (0 < b.maxPops ∧ b.maxPops ≤ s.work.pops) ∧
        ∃ e, s.queue.toList.head? = some e ∧ b.turned t s e = s' := by
  rw [step_eq]
  split
  · next hphase => exact ⟨nofun, fun h => absurd h.1 hphase⟩
  · next hphase =>
    split
    · next hbound => exact ⟨nofun, fun h => absurd hbound h.2.1⟩
    · next hbound =>
      cases s.queue.toList.head? with
      | none => simp
      | some e => simp [Classical.not_not.1 hphase, hbound]

/-- A search ends when it is done, when it took as many edges as it may, or when no edge waits. -/
theorem halt_cases {b : BestFirst} {t : Task} {s s' : State} (h : b.step t s = .halt s') :
    (s.phase ≠ .searching ∧ s' = s) ∨
      ((0 < b.maxPops ∧ b.maxPops ≤ s.work.pops) ∧
        s' = { s with notices := s.notices.push (.edgesStopped s.work.pops) }) ∨
      (s.queue.toList = [] ∧
        s' = { s with queue := s.queue.pop.2, history := s.history.push (.popped none) }) := by
  rw [step_eq] at h
  split at h
  · next hphase =>
    cases h
    exact Or.inl ⟨hphase, rfl⟩
  · split at h
    · next hbound =>
      cases h
      exact Or.inr (Or.inl ⟨hbound, rfl⟩)
    · cases htop : s.queue.toList.head? with
      | none =>
          rw [htop] at h
          cases h
          exact Or.inr (Or.inr ⟨List.head?_eq_none_iff.1 htop, rfl⟩)
      | some e =>
          rw [htop] at h
          cases h

/-- What becomes of the edge taken in a turn. -/
inductive Moves (b : BestFirst) (t : Task) (s : State) (e : Edge) (s' : State) : Prop where
  /-- It is not better than its layer. -/
  | skip (declined : b.rule.accepts s.chart e = false) (chart_eq : s'.chart = s.chart)
      (frontier_eq : s'.frontier = s.frontier) (queue_eq : s'.queue = s.queue.pop.2)
      (phase_eq : s'.phase = .searching) (faulty_eq : s'.faulty = s.faulty)
  /-- It completes the root, and the search is done. -/
  | complete (accepted : b.rule.accepts s.chart e = true)
      (completes : (s.chart.store t.grammar e).isComplete t.grammar = true)
      (stops : b.untilExhausted = false) (chart_eq : s'.chart = s.chart.store t.grammar e)
      (frontier_eq : s'.frontier = s.frontier) (queue_eq : s'.queue = s.queue.pop.2)
      (phase_eq : s'.phase = .done) (faulty_eq : s'.faulty = s.faulty)
  /-- It is committed and expanded. -/
  | expand (before : State)
      (state_eq : s' = before.expand t e.target ⟨s.chart.isNew e, s.chart.raises e⟩)
      (accepted : b.rule.accepts s.chart e = true)
      (continues : (s.chart.store t.grammar e).isComplete t.grammar = true →
        b.untilExhausted = true)
      (chart_eq : before.chart = s.chart.store t.grammar e)
      (frontier_eq : before.frontier = s.frontier) (queue_eq : before.queue = s.queue.pop.2)
      (phase_eq : before.phase = .searching) (faulty_eq : before.faulty = s.faulty)

variable {b : BestFirst} {t : Task}

/-- A turn stores the edge that it takes, if the rule accepts it. -/
theorem Moves.chart_cases {s s' : State} {e : Edge} (h : Moves b t s e s') :
    (b.rule.accepts s.chart e = false ∧ s'.chart = s.chart) ∨
      (b.rule.accepts s.chart e = true ∧ s'.chart = s.chart.store t.grammar e) := by
  cases h with
  | skip declined chart_eq frontier_eq queue_eq phase_eq faulty_eq =>
      exact Or.inl ⟨declined, chart_eq⟩
  | complete accepted completes stops chart_eq frontier_eq queue_eq phase_eq faulty_eq =>
      exact Or.inr ⟨accepted, chart_eq⟩
  | expand before state_eq accepted continues chart_eq frontier_eq queue_eq phase_eq faulty_eq =>
      refine Or.inr ⟨accepted, ?_⟩
      rw [state_eq, State.chart_expand, chart_eq]

/-- A turn after which the search goes on takes an edge. -/
theorem step_next {s s' : State} (h : b.step t s = .next s') :
    s.phase = .searching ∧ ∃ e, s.queue.toList.head? = some e ∧ Moves b t s e s' := by
  obtain ⟨hphase, -, e, htop, rfl⟩ := next_iff.1 h
  refine ⟨hphase, e, htop, ?_⟩
  unfold turned
  split
  · next haccepts =>
    split
    · next hdone =>
      rw [Bool.and_eq_true, Bool.not_eq_true'] at hdone
      exact .complete haccepts hdone.1 hdone.2 rfl rfl rfl rfl rfl
    · next hgoes =>
      refine .expand _ rfl haccepts ?_ rfl rfl rfl hphase rfl
      intro hcomplete
      rw [hcomplete, Bool.true_and, Bool.not_eq_true', Bool.not_eq_false] at hgoes
      exact hgoes
  · next hdeclined => exact .skip (Bool.not_eq_true _ ▸ hdeclined) rfl rfl rfl hphase rfl

/-- A turn that ends the search leaves the chart; without a bound on the edges taken, the
search was done or the queue empty. -/
theorem step_halt {s s' : State} (h : b.step t s = .halt s') :
    s'.chart = s.chart ∧ s'.faulty = s.faulty ∧
      (b.maxPops = 0 → s.phase ≠ .searching ∨ s.queue.toList = []) := by
  rcases halt_cases h with ⟨hphase, rfl⟩ | ⟨hbound, rfl⟩ | ⟨hempty, rfl⟩
  · exact ⟨rfl, rfl, fun _ => Or.inl hphase⟩
  · exact ⟨rfl, rfl, fun hzero => absurd hbound.1 (by omega)⟩
  · exact ⟨rfl, rfl, fun _ => Or.inr hempty⟩

/-- The search is a loop of these turns. -/
theorem runs (b : BestFirst) (t : Task) :
    Loop.Runs (fun s s' => b.step t s = .next s') (fun s last => b.step t s = .halt last)
      (b.run t) where
  unique hstep hstep' := Turn.next.inj (hstep.symm.trans hstep')
  stops hhalt hstep := nomatch hhalt.symm.trans hstep
  zero _ := rfl
  succ turns s := by
    rw [run]
    cases hstep : b.step t s with
    | next s' => exact Or.inl ⟨s', rfl, rfl⟩
    | halt last => exact Or.inr rfl

/-! ## Seeding -/

/-- Invariants of the seeding: one between words and one between the slots of a word. -/
theorem seed_induction {I : Nat → State → Prop} {J : Nat → List NonTerminal → State → Prop}
    (hword : ∀ i s, i < t.sentence.size → I i s → ∀ work,
      J i (s.chart.seed t.grammar (t.sentence.token? i) i).1.toList
        { s with chart := (s.chart.seed t.grammar (t.sentence.token? i) i).2, work })
    (hslot : ∀ i nt rest s, i < t.sentence.size → J i (nt :: rest) s →
      J i rest (s.expand t ⟨⟨i, i + 1, nt⟩, 0⟩ ⟨true, true⟩))
    (hdone : ∀ i s, i < t.sentence.size → J i [] s → I (i + 1) s) {s : State} (h : I 0 s) :
    ∀ n ≤ t.sentence.size, I n ((List.range n).foldl (fun s i => s.seedWord t i) s) := by
  have hslots : ∀ i, i < t.sentence.size → ∀ (rest : List NonTerminal) s, J i rest s →
      J i [] (rest.foldl (fun s nt => s.expand t ⟨⟨i, i + 1, nt⟩, 0⟩ ⟨true, true⟩) s) := by
    intro i hi rest
    induction rest with
    | nil => exact fun s hJ => hJ
    | cons nt rest ih => exact fun s hJ => ih _ (hslot i nt rest s hi hJ)
  refine Loop.foldl_range (fun i s hi hI => hdone i _ hi ?_) h
  unfold State.seedWord
  dsimp only
  rw [← Array.foldl_toList]
  exact hslots i hi _ _ (hword i s hi hI _)

end BestFirst
end BestParse
