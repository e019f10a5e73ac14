import BestParse.Proofs.BestFirst.Log
import BestParse.Proofs.BestFirst.Trees

/-!
# The order of a search by scores

When edges are rated by their scores and probabilities are at most one, a search goes
downhill.  The edges that wait are no better than any edge that was taken, since a turn adds
only edges that are no better than the one it took (`Falling`).

So a layer is settled by its first commit (`SettledOnce`).  An edge of a turn that reaches a
layer for the second time is no better than the first, which the layer holds, and is not
accepted.  The layers that seeds are for are out of reach: no edge that an expansion makes is
for the bottom layer over one word, whatever becomes of the chart after the seeding.
-/

namespace BestParse
namespace BestFirst

open Chart

variable {b : BestFirst} {t : Task} {chain : Nat} {log : List Edge} {s s' : State} {e : Edge}

/-! ## Seeds -/

/-- No edge that waits is for a layer that seeds are for. -/
def Wide (s : State) : Prop := ∀ f ∈ s.queue.toList, ∀ i, ¬ OfWord i f.target

theorem Expands.wide (hg : t.grammar.WellFormed) {target : Target} {effect : Effect}
    (h : Expands b t s target effect) (hwide : Wide s) : Wide (s.expand t target effect) := by
  obtain ⟨-, -, pending, slots, hregular, -⟩ := h.regular hg
  intro f hf
  rw [State.queue_expand] at hf
  rcases mem_offered _ hf with hold | ⟨f, hmade, rfl⟩
  · exact hwide f hold
  · have hnot := not_ofWord_candidates hg hregular (h.hasTarget hg) hmade
    exact hnot

/-- Before the first turn no edge is taken, and none waits for a layer of seeds. -/
theorem Seeds.wide (hg : t.grammar.WellFormed) {words : Nat} {nts : List NonTerminal}
    (h : Seeds b t words nts s) : Wide s ∧ popped s.history = [] := by
  induction h with
  | start =>
      refine ⟨fun f hf => ?_, rfl⟩
      have hqueue : (b.start t).queue.toList = [] := b.queue.toList_reset
      rw [hqueue] at hf
      cases hf
  | word before lt ih => exact ih
  | slot before ih =>
      exact ⟨(Expands.word before).wide hg ih.1, (State.log_expand t _ _ _).1.trans ih.2⟩

/-- A word seeds each layer at most once. -/
theorem nodup_seedEdges (hg : t.grammar.WellFormed) (c : Chart) (word : Option WordId) (i : Nat) :
    ((c.seedEdges t.grammar i (t.grammar.lexicalWith word)).map Edge.target).Nodup := by
  refine List.Nodup.sublist ((seedEdges_sublist _ _ _ _).map _) ?_
  have hparents := hg.nodup_parents word
  rw [List.map_map]
  refine hparents.of_map.map_on fun id hid id' hid' heq => ?_
  have hparent : (t.grammar.production id).parent = (t.grammar.production id').parent :=
    congrArg (fun τ : Target => τ.slot.symbol) heq
  exact List.inj_on_of_nodup_map hparents hid hid' hparent

theorem nodup_seedCommits (hg : t.grammar.WellFormed) (b : BestFirst) : ∀ words,
    ((seedCommits b t words).map Edge.target).Nodup
  | 0 => List.nodup_nil
  | words + 1 => by
      rw [seedCommits_succ, List.map_append]
      refine List.nodup_append.2 ⟨nodup_seedCommits hg b words, nodup_seedEdges hg _ _ _, ?_⟩
      rintro _ hτ _ hτ' rfl
      obtain ⟨e, he, rfl⟩ := List.mem_map.1 hτ
      obtain ⟨e', he', heq⟩ := List.mem_map.1 hτ'
      obtain ⟨id, i, hi, -, rfl⟩ := mem_seedCommits he
      obtain ⟨id', -, rfl⟩ := List.mem_map.1 ((seedEdges_sublist _ _ _ _).subset he')
      have hstart : words = i := congrArg (fun τ : Target => τ.slot.start) heq
      omega

/-! ## Falling scores -/

/-- The edges taken never get better, and those that wait are no better than any of them. -/
structure Falling (s : State) : Prop where
  number : ∀ e ∈ popped s.history, e.inside ≠ .nan
  falls : (popped s.history).Pairwise fun e f => f.inside.rank ≤ e.inside.rank
  below : ∀ e ∈ popped s.history, ∀ f ∈ s.queue.toList, f.inside.rank ≤ e.inside.rank

/-- Each layer was committed once, and it holds at least the score of the edge taken for it. -/
structure SettledOnce (log : List Edge) (s : State) : Prop where
  wide : Wide s
  held : ∀ e ∈ log, (∃ i, OfWord i e.target) ∨
    e ∈ popped s.history ∧ s.chart.HasTarget e.target ∧
      e.inside.rank ≤ (s.chart.scoreAt e.target).rank
  once : (log.map Edge.target).Nodup

/-- An edge that waits and improves its layer is for a layer that was not committed. -/
theorem SettledOnce.target_ne (h : SettledOnce log s) (hfalling : Falling s)
    (he : e ∈ s.queue.toList) (hacc : s.chart.accepts e = true) :
    ∀ f ∈ log, f.target ≠ e.target := by
  intro f hf heq
  rcases h.held f hf with ⟨i, hword⟩ | ⟨htaken, -, hheld⟩
  · exact h.wide e he i (heq ▸ hword)
  · -- The layer holds at least the earlier edge, and the one that waits is no better than that.
    have hle := Int.le_trans (hfalling.below f htaken e he) hheld
    rw [heq] at hle
    exact Int.not_lt.2 hle (Score.improves_iff.1 hacc).2.2

section

variable (hg : t.grammar.WellFormed) (hneg : t.grammar.Discounting) (hrates : RatesInside t)
  (hfaithful : Faithful t chain s) (hsteady : Steady t chain s) (hstep : b.step t s = .next s')
  (htop : s.queue.toList.head? = some e)

include hg hneg hrates hfaithful hsteady hstep htop

/-- An edge that waits after a turn is no better than the edge that the turn took, and it
waited before or is for no layer of seeds. -/
theorem Faithful.waits_next {f : Edge} (hf : f ∈ s'.queue.toList) :
    f.inside.rank ≤ e.inside.rank ∧ (f ∈ s.queue.toList ∨ ∀ i, ¬ OfWord i f.target) := by
  obtain ⟨pending, slots, hregular, -⟩ := hsteady
  obtain ⟨-, e', htop', hmoves⟩ := step_next hstep
  cases htop.symm.trans htop'
  have hgate : b.rule.accepts s.chart e = true → s.chart.accepts e = true := fun haccepted =>
    (hfaithful.good.improves_of_accepted hg (Or.inr hrates) htop haccepted).2
  rcases waits_moves hg hneg hregular hfaithful.course htop hgate hmoves hf with
    hold | ⟨-, hle, hwide⟩
  · exact ⟨hfaithful.good.inside_le_head hrates htop f hold, Or.inl hold⟩
  · exact ⟨hle, Or.inr hwide⟩

theorem Falling.next (h : Falling s) (hpopped : popped s'.history = popped s.history ++ [e]) :
    Falling s' := by
  have hwaits := fun f hf =>
    (hfaithful.waits_next hg hneg hrates hsteady hstep htop (f := f) hf).1
  have hlast : ∀ p ∈ popped s.history, e.inside.rank ≤ p.inside.rank := fun p hp =>
    h.below p hp e (List.mem_of_mem_head? htop)
  constructor
  · rw [hpopped]
    intro p hp
    rcases List.mem_append.1 hp with hold | hnew
    · exact h.number p hold
    · rw [List.mem_singleton.1 hnew]
      exact inside_ne_nan_of_supported hg
        (hfaithful.good.supported e (List.mem_of_mem_head? htop))
  · rw [hpopped, List.pairwise_append]
    refine ⟨h.falls, List.pairwise_singleton _ _, fun p hp f hf => ?_⟩
    rw [List.mem_singleton.1 hf]
    exact hlast p hp
  · rw [hpopped]
    intro p hp f hf
    rcases List.mem_append.1 hp with hold | hnew
    · exact Int.le_trans (hwaits f hf) (hlast p hold)
    · rw [List.mem_singleton.1 hnew]
      exact hwaits f hf

theorem Wide.next (h : Wide s) : Wide s' := by
  intro f hf
  rcases (hfaithful.waits_next hg hneg hrates hsteady hstep htop hf).2 with hold | hwide
  · exact h f hold
  · exact hwide

/-- An edge that a turn commits is the first one for its layer. -/
theorem SettledOnce.next (h : SettledOnce log s) (hfalling : Falling s)
    (hpopped : popped s'.history = popped s.history ++ [e]) :
    SettledOnce (log ++ (b.turnCommit? s).toList) s' := by
  have hwide := h.wide.next hg hneg hrates hfaithful hsteady hstep htop
  obtain ⟨-, e', htop', hmoves⟩ := step_next hstep
  cases htop.symm.trans htop'
  have he := List.mem_of_mem_head? htop
  rcases hmoves.chart_cases with ⟨hdeclined, hchart⟩ | ⟨haccepted, hchart⟩
  · have hnone : b.turnCommit? s = none := by
      rw [turnCommit?_of_head htop, if_neg (Bool.not_eq_true _ ▸ hdeclined)]
    rw [hnone, Option.toList_none, List.append_nil]
    refine ⟨hwide, fun f hf => (h.held f hf).imp_right ?_, h.once⟩
    rw [hchart, hpopped]
    exact And.imp_left (List.mem_append_left _)
  · have hsome : b.turnCommit? s = some e := by
      rw [turnCommit?_of_head htop, if_pos haccepted]
    obtain ⟨htarget, hacc⟩ :=
      hfaithful.good.improves_of_accepted hg (Or.inr hrates) htop haccepted
    have hcoherent := hfaithful.good.sound.coherent
    have hgrows := hcoherent.grows_store htarget hacc
    rw [hsome, Option.toList_some]
    refine ⟨hwide, fun f hf => ?_, ?_⟩
    · rw [hchart, hpopped]
      rcases List.mem_append.1 hf with hold | hnew
      · refine (h.held f hold).imp_right ?_
        rintro ⟨htaken, htarget', hle⟩
        exact ⟨List.mem_append_left _ htaken, hgrows.hasTarget.2 htarget',
          Int.le_trans hle (hgrows.score_le _ htarget')⟩
      · rw [List.mem_singleton.1 hnew, scoreAt_store hcoherent.sized htarget htarget, if_pos rfl]
        exact Or.inr ⟨List.mem_append_right _ (List.mem_singleton_self e), htarget, Int.le_refl _⟩
    · rw [List.map_append, List.nodup_append]
      refine ⟨h.once, List.nodup_singleton _, ?_⟩
      rintro _ hτ _ hτ' heq
      obtain ⟨f, hf, rfl⟩ := List.mem_map.1 hτ
      rw [List.map_singleton, List.mem_singleton] at hτ'
      exact h.target_ne hfalling he hacc f hf (heq.trans hτ')

end

/-! ## Whole searches -/

theorem falling_seed (hg : t.grammar.WellFormed) (b : BestFirst) :
    Falling ((b.start t).seed t b.untilExhausted) := by
  have hnone : popped ((b.start t).seed t b.untilExhausted).history = [] :=
    ((seeds_words b t t.sentence.size (Nat.le_refl _)).wide hg).2
  constructor <;> simp [hnone]

theorem settledOnce_seed (hg : t.grammar.WellFormed) (b : BestFirst) :
    SettledOnce (seedCommits b t t.sentence.size) ((b.start t).seed t b.untilExhausted) := by
  have hwide := ((seeds_words b t t.sentence.size (Nat.le_refl _)).wide hg).1
  refine ⟨hwide, fun e he => ?_, nodup_seedCommits hg b _⟩
  obtain ⟨id, i, -, -, rfl⟩ := mem_seedCommits he
  exact Or.inl ⟨i, rfl, rfl, rfl⟩

/-- When probabilities are at most one and edges are rated by their scores, the edges taken
never get better, and no edge that still waits is better than any of them.  Each layer is
committed at most once, and no edge that still waits for a layer that was committed is better
than its commit.  The commits are those that fill the chart, with the seeds. -/
theorem layers_settle_once {d : Draft} {t : Task} (hbuild : d.build = .ok t.grammar)
    (hneg : ∀ id, id < t.grammar.numProductions →
      (t.grammar.production id).logprob.isAtMost .certain = true)
    (hmerit : t.merit = .inside) (b : BestFirst) :
    (popped (b.parse t).2.history).Pairwise (fun e f => f.inside.isAtMost e.inside = true) ∧
    (∀ e ∈ popped (b.parse t).2.history, ∀ f ∈ (b.parse t).2.queue.toList,
      f.inside.isAtMost e.inside = true) ∧
    ((b.commits t).map Edge.target).Nodup ∧
    (∀ e ∈ b.commits t, ∀ f ∈ (b.parse t).2.queue.toList, f.target = e.target →
      f.inside.isAtMost e.inside = true) ∧
    (b.parse t).1.chart =
      (Chart.empty t.grammar t.sentence.size b.maxChain).replay t.grammar (b.commits t) ∧
    (b.parse t).1.work.committed = (b.commits t).length ∧
    (b.parse t).1.work.pops = (popped (b.parse t).2.history).length := by
  have hg := wellFormed_of_build hbuild
  have hdiscounts : t.grammar.Discounting := fun id hid =>
    (Score.isAtMost_iff.1 (hneg id hid)).2.2
  have hrates := ratesInside_of_merit hmerit
  obtain ⟨hreplay, hcommitted, hpops⟩ := replay_commits b t
  obtain ⟨s, ⟨-, hfaithful, hfalling, hsettled⟩, -, hqueue, hpopped, -, -⟩ := parse_log b t
    (I := fun log s => Steady t b.maxChain s ∧ Faithful t b.maxChain s ∧ Falling s ∧
      SettledOnce log s)
    ⟨steady_seed hg b, faithful_seed hg hrates b, falling_seed hg b, settledOnce_seed hg b⟩
    fun log s s' ⟨hsteady, hfaithful, hfalling, hsettled⟩ hstep => by
      obtain ⟨e, htop, hpopped, -, -⟩ := log_next hstep
      exact ⟨(steady_next hg hsteady hstep).1,
        hfaithful.next hg hdiscounts hrates hsteady hstep,
        hfalling.next hg hdiscounts hrates hfaithful hsteady hstep htop hpopped,
        hsettled.next hg hdiscounts hrates hfaithful hsteady hstep htop hfalling hpopped⟩
  rw [hqueue, hpopped]
  have hbelow : ∀ e ∈ popped s.history, ∀ f ∈ s.queue.toList,
      f.inside.isAtMost e.inside = true := by
    intro e he f hf
    have hnumber := inside_ne_nan_of_supported hg (hfaithful.good.supported f hf)
    exact Score.isAtMost_iff.2 ⟨hnumber, hfalling.number e he, hfalling.below e he f hf⟩
  refine ⟨?falls, hbelow, hsettled.once, ?waits, hreplay, hcommitted, hpopped ▸ hpops⟩
  case falls =>
    refine hfalling.falls.imp_of_mem fun he hf hle => ?_
    exact Score.isAtMost_iff.2 ⟨hfalling.number _ hf, hfalling.number _ he, hle⟩
  case waits =>
    intro e he f hf htarget
    rcases hsettled.held e he with ⟨i, hword⟩ | ⟨htaken, -, -⟩
    · exact absurd (htarget ▸ hword) (hsettled.wide f hf i)
    · exact hbelow e htaken f hf

/-- Two rivals wait for one layer.  After two edges the better one is committed, and the worse
one still waits. -/
theorem layers_settle_once_rival :
    ∃ e ∈ ({ BestFirst.new .ghost .heuristic .stable with maxPops := 2 }).commits
        { worstFirst with merit := .inside },
      ∃ f ∈ (({ BestFirst.new .ghost .heuristic .stable with maxPops := 2 }).parse
          { worstFirst with merit := .inside }).2.queue.toList,
        f ≠ e ∧ f.target = e.target ∧ f.inside.isAtMost e.inside = true := by
  let better := Edge.binary rivalGrammar 4 0 1 2 (.ofRatio true 1 1)
  let worse := Edge.binary rivalGrammar 6 0 1 2 (.ofRatio true 11 2)
  have hbetter : better ∈ ({ BestFirst.new .ghost .heuristic .stable with maxPops := 2 }).commits
      { worstFirst with merit := .inside } := by decide +kernel
  have hworse : worse ∈ (({ BestFirst.new .ghost .heuristic .stable with maxPops := 2 }).parse
      { worstFirst with merit := .inside }).2.queue.toList := by decide +kernel
  have htarget : worse.target = better.target := by decide +kernel
  obtain ⟨-, -, -, hwaits, -⟩ := layers_settle_once (t := { worstFirst with merit := .inside })
    (Draft.build_eq_ok _) (by decide +kernel) rfl
    { BestFirst.new .ghost .heuristic .stable with maxPops := 2 }
  exact ⟨better, hbetter, worse, hworse, by decide +kernel, htarget,
    hwaits better hbetter worse hworse htarget⟩

end BestFirst
end BestParse
