import BestParse.Proofs.Chart.Log
import BestParse.Proofs.SpanFirst.Halting

/-!
# The log of span-first search

Span-first search commits the seeds of its words, and the edges of its local queue that are not
passed over.  `commits` lists them in order, following the definition of the search: the words,
each with the rounds of the local queue after it, and then the visits.

Between two commits of a visit, children may be raised under edges that already wait.  The course
carries these edges along (`Orderly.course`), so nothing is said about them here but that they are
in hand.
-/

namespace BestParse
namespace SpanFirst

open Chart

variable {t : Task} {chain : Nat} {s s' : State} {p : SpanFirst}

/-! ## The edges committed -/

namespace State

/-- The edge that a round commits, if it commits one. -/
def roundCommit? (maxLocal admitted : Nat) (s : State) (e : Edge) : Option Edge :=
  if passesOver maxLocal admitted s e then none else some e

/-- The edges that at most so many rounds commit. -/
def roundCommits (t : Task) (maxLocal : Nat) : (turns admitted : Nat) → State → List Edge
  | 0, _, _ => []
  | turns + 1, admitted, s =>
    match s.waiting.entries.head? with
    | none => []
    | some e =>
      (roundCommit? maxLocal admitted s e).toList ++
        roundCommits t maxLocal turns (admittedAfter maxLocal admitted s e)
          (round t maxLocal admitted s e)

/-- The edges committed while the local queue is emptied. -/
def drainCommits (t : Task) (maxLocal : Nat) (s : State) : List Edge :=
  roundCommits t maxLocal (s.admissions t) 0 s

/-- The edges that a word commits: its seeds, and unary edges over them. -/
def wordCommits (t : Task) (maxLocal : Nat) (s : State) (i : Nat) : List Edge :=
  s.chart.seedEdges t.grammar i (t.grammar.lexicalWith (t.sentence.token? i)) ++
    (s.sow t i).drainCommits t maxLocal

/-- The edges that a visit commits. -/
def visitCommits (t : Task) (maxLocal : Nat) (s : State) (k : Nat × Nat) : List Edge :=
  (s.gather t k.1 k.2).drainCommits t maxLocal

end State

/-- The edges that the words commit. -/
def seedCommits (p : SpanFirst) (t : Task) : List Edge :=
  loopLog (fun s i => s.seedWord t p.maxLocal i) (State.wordCommits t p.maxLocal) (words p t 0)
    (List.range t.sentence.size)

/-- The edges that a turn commits. -/
def turnCommits (p : SpanFirst) (t : Task) (s : State) : List Edge :=
  match s.top? with
  | none => []
  | some (k, fom) => (s.take k fom).visitCommits t p.maxLocal k

/-- The edges that at most so many turns commit. -/
def runCommits (p : SpanFirst) (t : Task) : (turns : Nat) → State → List Edge
  | 0, _ => []
  | turns + 1, s =>
    match p.step t s with
    | .next s' => turnCommits p t s ++ runCommits p t turns s'
    | .halt _ => []

/-- The edges that a search commits, in order. -/
def commits (p : SpanFirst) (t : Task) : List Edge :=
  seedCommits p t ++ runCommits p t (turns (seeded p t).chart) (seeded p t)

/-! ## Where they lead -/

theorem State.committed_rekeyAll (t : Task) (spans : List (Nat × Nat)) (s : State) :
    (s.rekeyAll t spans).work.committed = s.work.committed :=
  congrArg (fun tally => tally.2.2) (tally_rekeyAll t spans s)

section

variable (hg : t.grammar.WellFormed) (h : Orderly t chain s)

include hg h

theorem leads_round (maxLocal admitted : Nat) {e : Edge}
    (hhead : s.waiting.entries.head? = some e) :
    Leads t chain s.chart s.work.committed (State.roundCommit? maxLocal admitted s e).toList
      (State.round t maxLocal admitted s e).chart
      (State.round t maxLocal admitted s e).work.committed := by
  have hafter := h.admits hg hhead (State.admits_round t maxLocal admitted s e)
  obtain ⟨-, -, hround⟩ := State.tally_round t maxLocal admitted s e
  refine Leads.step h.course hafter.course ?_ ?_
  · unfold State.roundCommit?
    split at hround
    · next hskip => rw [if_pos hskip, hround.1]; rfl
    · next hgoes => rw [if_neg hgoes, hround.1]; rfl
  · unfold State.roundCommit?
    split at hround
    · next hskip => rw [if_pos hskip, hround.2]; rfl
    · next hgoes => rw [if_neg hgoes, hround.2]; rfl

omit h in
theorem leads_rounds (maxLocal : Nat) : ∀ (turns admitted : Nat) {s : State}, Orderly t chain s →
    Leads t chain s.chart s.work.committed (State.roundCommits t maxLocal turns admitted s)
      (State.drainFrom t maxLocal turns admitted s).chart
      (State.drainFrom t maxLocal turns admitted s).work.committed
  | 0, _, _, h => Leads.refl h.course _
  | turns + 1, admitted, s, h => by
      unfold State.roundCommits
      cases hhead : s.waiting.entries.head? with
      | none =>
          rw [State.drainFrom_nil (List.head?_eq_none_iff.1 hhead)]
          exact Leads.refl h.course _
      | some e =>
          have hafter := h.admits hg hhead (State.admits_round t maxLocal admitted s e)
          rw [State.drainFrom_succ t maxLocal turns admitted hhead]
          exact (leads_round hg h maxLocal admitted hhead).trans
            (leads_rounds maxLocal turns _ hafter)

theorem leads_seedWord (maxLocal : Nat) {i : Nat} (hi : i < t.sentence.size) :
    Leads t chain s.chart s.work.committed (s.wordCommits t maxLocal i)
      (s.seedWord t maxLocal i).chart (s.seedWord t maxLocal i).work.committed := by
  have hseeds := leads_seedEdges h.course hg hi s.work.committed
  have hrounds := leads_rounds hg maxLocal ((s.sow t i).admissions t) 0 (h.sow hg hi)
  obtain ⟨before, hchart, -, -, -, hqueues⟩ := s.sow_eq t i
  have hcommitted : (s.sow t i).work.committed =
      s.work.committed + (s.chart.seed t.grammar (t.sentence.token? i) i).1.size :=
    congrArg (fun tally => tally.2.2) (State.tally_targets t _ _)
  rw [hqueues.chart_eq, hchart, hcommitted] at hrounds
  rw [State.seedWord_eq]
  exact hseeds.trans hrounds

theorem leads_visit (maxLocal : Nat) {k : Nat × Nat} (hwide : Wide t k)
    (hopen : t.limits.isOpen k.1 k.2 = true) :
    Leads t chain s.chart s.work.committed (s.visitCommits t maxLocal k)
      (s.visit t maxLocal k.1 k.2).chart (s.visit t maxLocal k.1 k.2).work.committed := by
  have hrounds := leads_rounds hg maxLocal ((s.gather t k.1 k.2).admissions t) 0
    (h.gather hg hwide hopen)
  have hcommitted : (s.gather t k.1 k.2).work.committed = s.work.committed :=
    congrArg (fun tally => tally.2.2) (s.tally_gather t k.1 k.2)
  rw [(s.gather_eq t k.1 k.2).1, hcommitted] at hrounds
  exact hrounds

theorem leads_next (hstep : p.step t s = .next s') :
    Leads t chain s.chart s.work.committed (turnCommits p t s) s'.chart s'.work.committed := by
  obtain ⟨k, fom, htop, rfl⟩ := step_next hstep
  obtain ⟨hwide, hopen⟩ := h.wide k fom (State.top?_eq_some htop).1
  unfold turnCommits
  rw [htop, (State.rekeyAll_eq t _ _).1, State.committed_rekeyAll]
  exact leads_visit hg (h.take k fom) p.maxLocal hwide hopen

omit h in
theorem leads_run : ∀ (turns : Nat) {s : State}, Orderly t chain s →
    Leads t chain s.chart s.work.committed (runCommits p t turns s) (p.run t turns s).chart
      (p.run t turns s).work.committed
  | 0, _, h => Leads.refl h.course _
  | turns + 1, s, h => by
      unfold runCommits run
      cases hstep : p.step t s with
      | next s' => exact (leads_next hg h hstep).trans (leads_run turns (h.next hg hstep))
      | halt last =>
          rcases halt_cases hstep with ⟨-, rfl⟩ | ⟨-, rfl⟩ | ⟨-, rfl⟩
          · exact Leads.refl h.course _
          · exact Leads.refl h.course _
          · exact Leads.refl h.course _

end

/-! ## Stages of a search -/

theorem runCommits_mono : ∀ {n m : Nat} (_ : n ≤ m) (s : State),
    runCommits p t n s <+: runCommits p t m s
  | 0, _, _, _ => List.nil_prefix
  | n + 1, m + 1, h, s => by
      unfold runCommits
      cases p.step t s with
      | next s' =>
          exact (List.prefix_append_right_inj _).2
            (runCommits_mono (Nat.le_of_succ_le_succ h) s')
      | halt last => exact List.prefix_rfl

section

variable (hg : t.grammar.WellFormed) (p : SpanFirst)

include hg

theorem leads_words {n : Nat} (hn : n ≤ t.sentence.size) :
    Leads t p.maxChain (Chart.empty t.grammar t.sentence.size p.maxChain) 0
      (loopLog (fun s i => s.seedWord t p.maxLocal i) (State.wordCommits t p.maxLocal)
        (words p t 0) (List.range n))
      (words p t n).chart (words p t n).work.committed :=
  (Leads.loop State.chart (fun s => s.work.committed) (fun s i => s.seedWord t p.maxLocal i)
    (State.wordCommits t p.maxLocal) (I := Orderly t p.maxChain) (fun _ h => ⟨_, h.course⟩) _ _
    (fun _ hi _ h =>
      have hlt := Nat.lt_of_lt_of_le (List.mem_range.1 hi) hn
      ⟨h.seedWord hg p.maxLocal hlt, leads_seedWord hg h p.maxLocal hlt⟩)
    (Orderly.start t p.maxChain)).2

theorem leads_seeded_run (n : Nat) :
    Leads t p.maxChain (Chart.empty t.grammar t.sentence.size p.maxChain) 0
      (seedCommits p t ++ runCommits p t n (seeded p t)) (p.run t n (seeded p t)).chart
      (p.run t n (seeded p t)).work.committed := by
  have hwords := leads_words hg p (Nat.le_refl t.sentence.size)
  have hrun := leads_run (p := p) hg n (orderly_seeded hg p)
  rw [seeded_eq, (State.rekeyAll_eq t _ _).1, State.committed_rekeyAll, ← seeded_eq] at hrun
  exact hwords.trans hrun

/-- The log leads through the chart that is there after some of the words. -/
theorem isStage_words {n : Nat} (hn : n ≤ t.sentence.size) :
    (Chart.empty t.grammar t.sentence.size p.maxChain).IsStage t.grammar (p.commits t)
      (words p t n).chart :=
  (leads_words hg p hn).isStage
    ((loopLog_mono _ _ _ (range_mono hn)).trans (List.prefix_append _ _))

/-- The log leads through the chart that is there after some of the visits. -/
theorem isStage_run {n : Nat} (hn : n ≤ turns (seeded p t).chart) :
    (Chart.empty t.grammar t.sentence.size p.maxChain).IsStage t.grammar (p.commits t)
      (p.run t n (seeded p t)).chart :=
  (leads_seeded_run hg p n).isStage ((List.prefix_append_right_inj _).2 (runCommits_mono hn _))

/-- The log of a search leads from the empty chart to the chart that the search leaves. -/
theorem leads_parse :
    Leads t p.maxChain (Chart.empty t.grammar t.sentence.size p.maxChain) 0 (p.commits t)
      (p.parse t).chart (p.parse t).work.committed := by
  rw [(parse_eq p t rfl).1, (search_eq p t rfl).2]
  exact leads_seeded_run hg p _

end

end SpanFirst
end BestParse
