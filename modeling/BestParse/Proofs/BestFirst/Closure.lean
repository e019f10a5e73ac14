import BestParse.Proofs.Chart.Reach
import BestParse.Proofs.BestFirst.Course
import BestParse.Proofs.BestFirst.Halting

/-!
# Best-first search loses no derivation

For an arbitrary figure of merit scores get lost: a memo queue declines an edge whose figure is
low although its score is high, and a commit by figures of merit may lower the score of a layer.
What does not get lost is that a layer has some derivation.

A target is *due* when it is reachable or an edge for it waits.  An edge that a memo queue
drops gives way to another edge for its target, and an edge that the commit rule declines
finds its layer reachable already (`Fair.isReachable_of_declined`).  So coverage can be reckoned
by targets (`Reckoning.targets`), and what the chart gives in one more step is always due.  When
nothing waits any more, every derivation has a reachable target (`FullyCovered.reaches`).

This needs that no score overflows and that figures of merit are reachable: the layers of a
new chart are worth minus infinity, and an edge of that figure would never be committed.
-/

namespace BestParse

/-! ## What is due -/

/-- The target is reachable, or an edge that waits will make it so. -/
def Due (c : Chart) (waiting : List Edge) (τ : Target) : Prop :=
  (c.scoreAt τ).isReachable = true ∨ ∃ f ∈ waiting, f.target = τ

/-- What the queue remembers of a target is due. -/
def EdgeQueue.Remembers (c : Chart) (q : EdgeQueue) : Prop :=
  ∀ τ v, c.HasTarget τ → q.bestPushed? τ = some v → Due c q.toList τ

namespace EdgeQueue

variable {c c' : Chart} {q : EdgeQueue} {e : Edge} {τ : Target}

theorem bestPushed?_pop (q : EdgeQueue) (τ : Target) :
    q.pop.2.bestPushed? τ = q.bestPushed? τ := by
  cases q <;> rfl

/-- An edge is taken in, or the queue remembers one for its target. -/
theorem push_cases (q : EdgeQueue) (e : Edge) :
    (e ∈ (q.push e).2.toList ∧ ∀ f ∈ q.toList, f.target ≠ e.target → f ∈ (q.push e).2.toList) ∨
      (q.push e).2.toList = q.toList ∧ ∃ v, q.bestPushed? e.target = some v := by
  cases q with
  | stable q =>
      exact Or.inl ⟨StableQueue.mem_insert.2 (Or.inl rfl), fun f hf _ =>
        StableQueue.mem_insert.2 (Or.inr hf)⟩
  | memo q =>
      cases hacc : q.accepts e with
      | true =>
          exact Or.inl ⟨(MemoQueue.mem_push_of_accepts hacc).2 (Or.inl rfl), fun f hf hne =>
            (MemoQueue.mem_push_of_accepts hacc).2 (Or.inr ⟨hf, hne⟩)⟩
      | false =>
          refine Or.inr ⟨?_, ?_⟩
          · change (q.push e).2.waiting.entries = q.waiting.entries
            unfold MemoQueue.push
            rw [hacc]
            rfl
          · change ∃ v, q.best? e.target = some v
            unfold MemoQueue.accepts at hacc
            cases hbest : q.best? e.target with
            | none => rw [hbest] at hacc; cases hacc
            | some v => exact ⟨v, rfl⟩

theorem due_push (e : Edge) (h : Due c q.toList τ) : Due c (q.push e).2.toList τ := by
  rcases h with hreach | ⟨f, hf, hfτ⟩
  · exact Or.inl hreach
  · rcases q.push_cases e with ⟨hself, hothers⟩ | ⟨heq, -⟩
    · by_cases htarget : f.target = e.target
      · exact Or.inr ⟨e, hself, htarget.symm.trans hfτ⟩
      · exact Or.inr ⟨f, hothers f hf htarget, hfτ⟩
    · exact Or.inr ⟨f, heq ▸ hf, hfτ⟩

theorem due_push_self (h : q.Remembers c) (htarget : c.HasTarget e.target) :
    Due c (q.push e).2.toList e.target := by
  rcases q.push_cases e with ⟨hself, -⟩ | ⟨heq, v, hbest⟩
  · exact Or.inr ⟨e, hself, rfl⟩
  · rw [heq]
    exact h _ v htarget hbest

/-- What is remembered after an offer was remembered before, or is the edge's own target. -/
theorem bestPushed?_push {v : Score} (h : (q.push e).2.bestPushed? τ = some v) :
    τ = e.target ∨ ∃ v', q.bestPushed? τ = some v' := by
  cases q with
  | stable q => cases h
  | memo q =>
      change (q.push e).2.best? τ = some v at h
      cases hacc : q.accepts e with
      | true =>
          rw [MemoQueue.best?_push hacc] at h
          split at h
          · next heq => exact Or.inl heq
          · exact Or.inr ⟨v, h⟩
      | false =>
          unfold MemoQueue.push at h
          rw [hacc] at h
          exact Or.inr ⟨v, h⟩

theorem Remembers.push (h : q.Remembers c) : (q.push e).2.Remembers c := by
  intro τ v hτ hbest
  rcases bestPushed?_push hbest with rfl | ⟨v', hbest'⟩
  · exact due_push_self h hτ
  · exact due_push e (h τ v' hτ hbest')

end EdgeQueue

namespace BestFirst

open Chart

variable {t : Task} {chain : Nat} {b : BestFirst} {s s' : State} {e : Edge}

theorem offered_due (t : Task) (c : Chart) :
    ∀ (es : List Edge) {q : EdgeQueue}, q.Remembers c → (∀ e ∈ es, c.HasTarget e.target) →
      (offered t c q es).Remembers c ∧
      (∀ τ, Due c q.toList τ → Due c (offered t c q es).toList τ) ∧
      ∀ e ∈ es, Due c (offered t c q es).toList e.target
  | [], q, hq, _ => ⟨hq, fun _ h => h, List.forall_mem_nil _⟩
  | e :: es, q, hq, hes => by
      obtain ⟨hremembers, hkept, hmade⟩ := offered_due t c es
        (hq.push (e := e.withFom (t.merit.score e c))) fun f hf =>
          hes f (List.mem_cons_of_mem e hf)
      refine ⟨hremembers, fun τ h => hkept τ (EdgeQueue.due_push _ h), fun f hf => ?_⟩
      rcases List.mem_cons.1 hf with rfl | hrest
      · exact hkept _ (EdgeQueue.due_push_self (e := f.withFom (t.merit.score f c)) hq
          (hes f List.mem_cons_self))
      · exact hmade f hrest

/-! ## Fair states -/

/-- A score is met when its target is reachable or an edge for it waits. -/
def Reckoning.targets : Reckoning where
  Met c waiting τ _ := Due c waiting τ
  NoMore x y := x.isReachable = true → y.isReachable = true
  noMore_of_le hnum hle hreach := Score.isReachable_mono hreach hnum hle
  extend _ hmore hx := ⟨_, Score.extend_eq_some_iff.2
    ⟨hmore (Score.extend_eq_some_iff.1 hx).1, rfl⟩, fun _ _ _ hdue => hdue⟩
  combine _ hmorel hmorer hx := by
    obtain ⟨hreachl, hreachr, -⟩ := Score.combine_eq_some_iff.1 hx
    exact ⟨_, Score.combine_eq_some_iff.2 ⟨hmorel hreachl, hmorer hreachr, rfl⟩,
      fun _ _ _ hdue => hdue⟩

/-- The search is on a course, figures of merit are reachable, and what the queue remembers is
due. -/
structure Fair (t : Task) (chain : Nat) (s : State) : Prop where
  course : OnCourse t chain (fun _ _ => True) s
  rated : ∀ e ∈ s.queue.toList, e.fom.isReachable = true
  remembers : s.queue.Remembers s.chart

theorem Fair.attains (h : Fair t chain s) (hg : t.grammar.WellFormed) :
    s.chart.Attains t chain :=
  (h.course.attains hg).1

/-- An expansion makes the edges it offers due. -/
theorem Fair.expand (h : Fair t chain s) (hg : t.grammar.WellFormed)
    (hmerit : t.RatesReachable chain) {pending : Slot → Prop} {slots : List Slot}
    (hregular : Regular t chain pending slots s) {target : Target}
    (htarget : s.chart.HasTarget target) (effect : Effect) :
    Fair t chain (s.expand t target effect) ∧
      Reckoning.targets.Keeps s (s.expand t target effect) ∧
      ∀ e ∈ candidates t s target effect,
        Due s.chart (s.expand t target effect).queue.toList e.target := by
  obtain ⟨hremembers, hkept, hmade⟩ := offered_due t s.chart (candidates t s target effect)
    h.remembers fun e he => hregular.hasTarget_candidates hg htarget he
  rw [← State.queue_expand] at hremembers hkept hmade
  refine ⟨⟨h.course.expand hg hregular htarget, fun f hf => ?_, ?_⟩, ⟨?_, ?_⟩, hmade⟩
  · rw [State.queue_expand] at hf
    rcases mem_offered _ hf with hold | ⟨e, he, rfl⟩
    · exact h.rated f hold
    · exact hmerit e s.chart (supported_candidates (h.attains hg) hg hregular htarget he)
  · rw [State.chart_expand]
    exact hremembers
  · rw [State.chart_expand]
    exact fun _ _ _ hheld => hheld
  · rw [State.chart_expand]
    exact fun τ _ _ hdue => hkept τ hdue

/-! ## Turns -/

/-- Either rule accepts a reachable edge for a blank layer. -/
theorem accepts_of_blank (rule : CommitRule) {c : Chart} (hblank : c.layerAt e.target = {})
    (hinside : e.inside.isReachable = true) (hfom : e.fom.isReachable = true) :
    rule.accepts c e = true := by
  cases rule with
  | inside =>
      change e.inside.improves (c.layerAt e.target).inside = true
      rw [hblank]
      exact hinside
  | heuristic =>
      change e.fom.improves (c.layerAt e.target).fom = true
      rw [hblank]
      exact hfom

/-- An edge is taken out once its target is reachable. -/
theorem due_pop (htop : s.queue.toList.head? = some e) (hqueue : s'.queue = s.queue.pop.2)
    (hkept : s.chart.Retains s'.chart)
    (hheld : (s'.chart.scoreAt e.target).isReachable = true) {τ : Target}
    (hτ : s.chart.HasTarget τ) (h : Due s.chart s.queue.toList τ) :
    Due s'.chart s'.queue.toList τ := by
  obtain ⟨rest, hlist⟩ : ∃ rest, s.queue.toList = e :: rest := List.head?_eq_some_iff.1 htop
  rw [hqueue, EdgeQueue.toList_pop]
  rcases h with hreach | ⟨f, hf, hfτ⟩
  · exact Or.inl (hkept τ hτ hreach)
  · rw [hlist] at hf ⊢
    rcases List.mem_cons.1 hf with rfl | hrest
    · exact Or.inl (hfτ ▸ hheld)
    · exact Or.inr ⟨f, hrest, hfτ⟩

section

variable (h : Fair t chain s) (hg : t.grammar.WellFormed)

include h hg

theorem Fair.pop (hcourse : OnCourse t chain (fun _ _ => True) s')
    (htop : s.queue.toList.head? = some e) (hqueue : s'.queue = s.queue.pop.2)
    (hkept : s.chart.Retains s'.chart)
    (hheld : (s'.chart.scoreAt e.target).isReachable = true) :
    Fair t chain s' ∧ Reckoning.targets.Keeps s s' := by
  refine ⟨⟨hcourse, fun f hf => ?_, fun τ v hτ hbest => ?_⟩,
    ⟨fun τ _ hτ hdue => hdue.imp_left (hkept τ hτ),
      fun τ _ hτ hdue => due_pop htop hqueue hkept hheld hτ hdue⟩⟩
  · rw [hqueue, EdgeQueue.toList_pop] at hf
    exact h.rated f (List.mem_of_mem_tail hf)
  · have hτ' := ((hcourse.attains hg).1.isFor.hasTarget_iff (h.attains hg).isFor).1 hτ
    rw [hqueue, EdgeQueue.bestPushed?_pop] at hbest
    exact due_pop htop hqueue hkept hheld hτ' (h.remembers τ v hτ' hbest)

variable (hsafe : t.NoOverflow chain) (htop : s.queue.toList.head? = some e)

include hsafe htop

theorem Fair.head_isReachable : s.chart.HasTarget e.target ∧ e.inside.isReachable = true := by
  have hsupported := h.course.supported hg (List.mem_of_mem_head? htop)
  exact ⟨(h.attains hg).isFor.hasTarget_of_supported hg hsupported,
    hsafe.inside_isReachable hg hsupported⟩

/-- An edge that is not accepted finds its layer reachable. -/
theorem Fair.isReachable_of_declined (hdeclined : b.rule.accepts s.chart e = false) :
    (s.chart.scoreAt e.target).isReachable = true := by
  obtain ⟨htarget, hinside⟩ := h.head_isReachable hg hsafe htop
  refine Classical.byContradiction fun hnot => ?_
  have hblank := (h.course.grounded hg hsafe).layerAt_eq_of_not_isReachable htarget hnot
  have haccepts := accepts_of_blank b.rule hblank hinside
    (h.rated e (List.mem_of_mem_head? htop))
  cases haccepts.symm.trans hdeclined

theorem Fair.skip (hdeclined : b.rule.accepts s.chart e = false) (hchart : s'.chart = s.chart)
    (hqueue : s'.queue = s.queue.pop.2) : Fair t chain s' ∧ Reckoning.targets.Keeps s s' := by
  refine h.pop hg ?_ htop hqueue (fun τ _ hreach => hchart ▸ hreach) ?_
  · unfold OnCourse
    rw [hchart, hqueue, EdgeQueue.toList_pop]
    exact Course.keep h.course fun _ hf => List.mem_of_mem_tail hf
  · rw [hchart]
    exact h.isReachable_of_declined hg hsafe htop hdeclined

/-- A commit loses nothing reachable. -/
theorem Fair.commit (hchart : s'.chart = s.chart.store t.grammar e)
    (hqueue : s'.queue = s.queue.pop.2) : Fair t chain s' ∧ Reckoning.targets.Keeps s s' := by
  obtain ⟨htarget, hinside⟩ := h.head_isReachable hg hsafe htop
  have hsized := (h.course.linked hg).1.shaped.sized
  refine h.pop hg (h.course.commit htop trivial hchart hqueue) htop hqueue ?_ ?_
  · rw [hchart]
    exact retains_store hsized htarget hinside
  · rw [hchart, scoreAt_store hsized htarget htarget, if_pos rfl]
    exact hinside

end

/-! ## Seeding -/

/-- A seeded word loses nothing reachable. -/
theorem Fair.word (h : Fair t chain s) (hs : s.chart.Sound t chain) (hg : t.grammar.WellFormed)
    {i : Nat} (hi : i < t.sentence.size)
    (hchart : s'.chart = (s.chart.seed t.grammar (t.sentence.token? i) i).2)
    (hqueue : s'.queue = s.queue) : Fair t chain s' ∧ Reckoning.targets.Keeps s s' := by
  have hextends := extends_seed hs hg hi
  have hcourse := h.course.seed hg (fun _ _ _ => trivial) hi
  rw [← hchart] at hextends
  rw [← hchart, ← hqueue] at hcourse
  have hkept : s.chart.Retains s'.chart := fun τ hτ hreach =>
    Score.isReachable_mono hreach
      (hextends.sound.coherent.number τ (hextends.grows.hasTarget.2 hτ))
      (hextends.grows.score_le τ hτ)
  refine ⟨⟨hcourse, hqueue ▸ h.rated, fun τ v hτ hbest => ?_⟩, ⟨?_, ?_⟩⟩
  · rw [hqueue] at hbest ⊢
    have hτ' := hextends.grows.hasTarget.1 hτ
    exact (h.remembers τ v hτ' hbest).imp_left (hkept τ hτ')
  · exact fun τ _ hτ hdue => hdue.imp_left (hkept τ hτ)
  · rw [hqueue]
    exact fun τ _ hτ hdue => hdue.imp_left (hkept τ hτ)

/-- When nothing waits, what is due is reachable. -/
theorem Due.of_empty {c : Chart} {τ : Target} (h : Due c [] τ) :
    (c.scoreAt τ).isReachable = true := by
  rcases h with hreach | ⟨f, hf, -⟩
  · exact hreach
  · cases hf

end BestFirst
end BestParse
