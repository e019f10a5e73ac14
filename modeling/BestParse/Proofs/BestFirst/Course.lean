import BestParse.Proofs.Chart.Course
import BestParse.Proofs.BestFirst.Root

/-!
# The course of best-first search

Best-first search follows a course whose edges in hand are those that wait in the queue:
an expansion makes edges over the chart as it stands (`made_candidates`), the queue takes
some of them, and a turn commits the first edge or drops it.

This holds for every figure of merit and every commit rule.  What passes the gate is up to
the rule: with scores for figures of merit it is what improves the layer, and otherwise it
may be anything.
-/

namespace BestParse
namespace BestFirst

open Chart
open Edge (licensed_unary licensed_binary)

variable {t : Task} {chain : Nat} {gate : Chart → Edge → Prop} {b : BestFirst} {s s' : State}

/-- The chart and the queue are those of a course. -/
abbrev OnCourse (t : Task) (chain : Nat) (gate : Chart → Edge → Prop) (s : State) : Prop :=
  Course t chain gate s.chart s.queue.toList

/-! ## Expansions -/

section

variable (hg : t.grammar.WellFormed) {pending : Slot → Prop} {slots : List Slot}
  (hregular : Regular t chain pending slots s) {target : Target}
  (htarget : s.chart.HasTarget target) {effect : Effect}

include hg hregular htarget

/-- The edges of an expansion are made from the current scores. -/
theorem made_candidates {e : Edge} (he : e ∈ candidates t s target effect) :
    e.Licensed t chain ∧ e.scoreOver? t.grammar s.chart = some e.inside := by
  rcases List.mem_append.1 he with hunary | hbinary
  · obtain ⟨hlayer, hopen, id, x, hid, hexp, hallows, hx, rfl⟩ := (mem_unaryCandidates hg).1 hunary
    rw [hregular.isFor.maxChain_eq] at hlayer
    exact licensed_unary (hregular.isSpan htarget.1) hlayer hid hexp hopen hallows hx
  · obtain ⟨p, hp, hedge⟩ := List.mem_filterMap.1 hbinary
    obtain ⟨hopen, hmid, hallows, l, r, x, hexp, hx, rfl⟩ := edge?_eq_some.1 hedge
    obtain ⟨hid, -, -, hstop⟩ := hregular.inside_of_mem_reach hg htarget hp
    exact licensed_binary hstop hid hexp hopen hmid hallows hx

theorem OnCourse.expand (h : OnCourse t chain gate s) :
    OnCourse t chain gate (s.expand t target effect) := by
  have hmade := h.makeAll
    ((candidates t s target effect).map fun e => e.withFom (t.merit.score e s.chart)) (by
      intro f hf
      obtain ⟨e, he, rfl⟩ := List.mem_map.1 hf
      obtain ⟨hlicensed, hscore⟩ := made_candidates hg hregular htarget he
      exact ⟨hlicensed.withFom _, hscore⟩)
  unfold OnCourse
  rw [State.chart_expand, State.queue_expand]
  refine hmade.keep fun f hf => ?_
  rcases mem_offered _ hf with hold | ⟨e, he, rfl⟩
  · exact List.mem_append_right _ hold
  · exact List.mem_append_left _ (List.mem_map_of_mem he)

end

/-! ## Turns -/

/-- Committing the first edge stays on the course. -/
theorem OnCourse.commit (h : OnCourse t chain gate s) {e : Edge}
    (htop : s.queue.toList.head? = some e) (hpasses : gate s.chart e)
    (hchart : s'.chart = s.chart.store t.grammar e) (hqueue : s'.queue = s.queue.pop.2) :
    OnCourse t chain gate s' := by
  unfold OnCourse
  rw [hchart, hqueue, EdgeQueue.toList_pop]
  exact (Course.commit h (List.mem_of_mem_head? htop) hpasses).keep fun _ hf =>
    List.mem_of_mem_tail hf

theorem OnCourse.moves (h : OnCourse t chain gate s) (hg : t.grammar.WellFormed)
    {pending : Slot → Prop} {slots : List Slot} (hregular : Regular t chain pending slots s)
    {e : Edge} (htop : s.queue.toList.head? = some e)
    (hgate : b.rule.accepts s.chart e = true → gate s.chart e) (hmoves : Moves b t s e s') :
    OnCourse t chain gate s' := by
  cases hmoves with
  | skip declined chart_eq frontier_eq queue_eq phase_eq faulty_eq =>
      unfold OnCourse
      rw [chart_eq, queue_eq, EdgeQueue.toList_pop]
      exact Course.keep h fun _ hf => List.mem_of_mem_tail hf
  | complete accepted completes stops chart_eq frontier_eq queue_eq phase_eq faulty_eq =>
      exact h.commit htop (hgate accepted) chart_eq queue_eq
  | expand before state_eq accepted continues chart_eq frontier_eq queue_eq phase_eq faulty_eq =>
      have htarget : s.chart.HasTarget e.target := hregular.queued e (List.mem_of_mem_head? htop)
      have hbefore := hregular.store htarget chart_eq frontier_eq faulty_eq fun f hf => by
        rw [queue_eq, EdgeQueue.toList_pop] at hf
        exact List.mem_of_mem_tail hf
      have htarget' : before.chart.HasTarget e.target := by
        rw [chart_eq]
        exact htarget
      rw [state_eq]
      exact (h.commit htop (hgate accepted) chart_eq queue_eq).expand hg hbefore htarget'

theorem OnCourse.next (h : OnCourse t chain gate s) (hg : t.grammar.WellFormed)
    (hsteady : Steady t chain s)
    (hgate : ∀ e, s.queue.toList.head? = some e → b.rule.accepts s.chart e = true →
      gate s.chart e) (hstep : b.step t s = .next s') : OnCourse t chain gate s' := by
  obtain ⟨pending, slots, hregular, -⟩ := hsteady
  obtain ⟨-, e, htop, hmoves⟩ := step_next hstep
  exact h.moves hg hregular htop (hgate e htop) hmoves

/-! ## Seeding -/

/-- A word is seeded, and some of its slots are still to be expanded. -/
def Sowing (t : Task) (chain : Nat) (gate : Chart → Edge → Prop) (words : Nat)
    (pending : List Slot) (s : State) : Prop :=
  (∃ slots, Seeding t chain words pending slots s) ∧ OnCourse t chain gate s

theorem sowing_start (b : BestFirst) (t : Task) (gate : Chart → Edge → Prop) :
    Sowing t b.maxChain gate 0 [] (b.start t) := by
  refine ⟨⟨[], seeding_start b t⟩, ?_⟩
  have hqueue : (b.start t).queue.toList = [] := b.queue.toList_reset
  unfold OnCourse
  rw [hqueue]
  exact Course.start

theorem Sowing.word (hg : t.grammar.WellFormed)
    (hgate : ∀ c e, c.accepts e = true → gate c e) {i : Nat} (hi : i < t.sentence.size)
    (h : Sowing t chain gate i [] s) (work : Work) :
    Sowing t chain gate (i + 1)
      (wordSlots i (s.chart.seed t.grammar (t.sentence.token? i) i).1.toList)
      { s with chart := (s.chart.seed t.grammar (t.sentence.token? i) i).2, work } := by
  obtain ⟨⟨slots, hseeding⟩, hcourse⟩ := h
  exact ⟨⟨slots, hseeding.word hg hi work⟩, Course.seed hcourse hg hgate hi⟩

theorem Sowing.slot (hg : t.grammar.WellFormed) {words : Nat} {x : Slot} {pending : List Slot}
    (h : Sowing t chain gate words (x :: pending) s) :
    Sowing t chain gate words pending (s.expand t ⟨x, 0⟩ ⟨true, true⟩) := by
  obtain ⟨⟨slots, hseeding⟩, hcourse⟩ := h
  have htarget : s.chart.HasTarget ⟨x, 0⟩ :=
    ⟨(hseeding.fresh x List.mem_cons_self).1, Nat.zero_le _⟩
  exact ⟨⟨_, hseeding.slot hg⟩, hcourse.expand hg hseeding.regular htarget⟩

theorem sowing_words (hg : t.grammar.WellFormed) (hgate : ∀ c e, c.accepts e = true → gate c e)
    (b : BestFirst) : ∀ n ≤ t.sentence.size,
      Sowing t b.maxChain gate n []
        ((List.range n).foldl (fun s i => s.seedWord t i) (b.start t)) :=
  seed_induction (I := fun i s => Sowing t b.maxChain gate i [] s)
    (J := fun i rest s => Sowing t b.maxChain gate (i + 1) (wordSlots i rest) s)
    (fun _ _ hi h work => h.word hg hgate hi work) (fun _ _ _ _ _ h => h.slot hg)
    (fun _ _ _ h => h) (sowing_start b t gate)

theorem onCourse_seed (hg : t.grammar.WellFormed) (hgate : ∀ c e, c.accepts e = true → gate c e)
    (b : BestFirst) : OnCourse t b.maxChain gate ((b.start t).seed t b.untilExhausted) :=
  (sowing_words hg hgate b _ (Nat.le_refl _)).2

/-! ## Whole searches -/

/-- A parse follows a course whose gate lets pass what improves its layer, for the seeds, and
what the commit rule accepts. -/
theorem course_parse (hg : t.grammar.WellFormed) (b : BestFirst) (gate : Chart → Edge → Prop)
    (hseed : ∀ c e, c.accepts e = true → gate c e)
    (hrule : ∀ c e, b.rule.accepts c e = true → gate c e) :
    (∃ es, Course t b.maxChain gate (b.parse t).1.chart es) ∧
      (b.parse t).1.outcome = (b.parse t).1.chart.outcome t.grammar := by
  obtain ⟨s, hcourse, hchart, houtcome, -⟩ := parse_ends hg b (I := OnCourse t b.maxChain gate)
    (onCourse_seed hg hseed b) fun s s' hsteady hcourse hstep =>
      hcourse.next hg hsteady (fun _ _ => hrule _ _) hstep
  rw [hchart]
  exact ⟨⟨_, hcourse⟩, houtcome⟩

/-- With the rule that compares scores, a parse commits improving edges only. -/
theorem improving_parse (hg : t.grammar.WellFormed) (b : BestFirst) (hrule : b.rule = .inside) :
    ∃ es, Improving t b.maxChain (b.parse t).1.chart es := by
  refine (course_parse hg b _ (fun _ _ h => h) fun c e haccepts => ?_).1
  rw [hrule] at haccepts
  exact haccepts

end BestFirst
end BestParse
