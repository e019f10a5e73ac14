import BestParse.Search.BestFirst.Buffered
import BestParse.Proofs.BestFirst.Ghosts

/-!
# A buffer of candidates changes nothing

An expansion empties the buffer before it uses it, so a search with a buffer goes through the
states of the search without one (`Working.run_state`).

A parser is changed by its parses: they leave their frontier, their queue, their phase and their
history behind.  Of these the next parse sees only which kind of frontier and of queue they are
(`Alike.search`), and that is the same after every parse (`alike_parse`).
-/

namespace BestParse

@[simp] theorem Frontier.completes_reset (f : Frontier) (n : Nat) :
    (f.reset n).completes = f.completes := by
  cases f <;> rfl

/-- Two frontiers of the same kind are the same at the beginning of a sentence. -/
theorem Frontier.reset_eq {f f' : Frontier} (h : f.completes = f'.completes) (n : Nat) :
    f.reset n = f'.reset n := by
  cases f <;> cases f' <;> first | rfl | cases h

namespace EdgeQueue

@[simp] theorem kind_reset (q : EdgeQueue) : q.reset.kind = q.kind := by
  cases q <;> rfl

@[simp] theorem kind_push (q : EdgeQueue) (e : Edge) : (q.push e).2.kind = q.kind := by
  cases q <;> rfl

@[simp] theorem kind_pop (q : EdgeQueue) : q.pop.2.kind = q.kind := by
  cases q <;> rfl

end EdgeQueue

namespace BestFirst

/-! ## Searching with a buffer -/

namespace Working

variable {b : BestFirst} {t : Task}

theorem expand_state (w : Working) (target : Target) (effect : Effect) :
    (w.expand t target effect).state = w.state.expand t target effect := by
  simp only [expand, State.expand, refill_eq]

theorem seedWord_state (w : Working) (i : Nat) :
    (w.seedWord t i).state = w.state.seedWord t i := by
  unfold seedWord State.seedWord
  dsimp only
  simp only [← Array.foldl_toList]
  exact (List.foldl_hom Working.state fun w _ => (expand_state w _ _).symm).symm

theorem seed_state (w : Working) (untilExhausted : Bool) :
    (w.seed t untilExhausted).state = w.state.seed t untilExhausted := by
  unfold seed State.seed
  dsimp only
  rw [← List.foldl_hom Working.state fun w i => (seedWord_state (t := t) w i).symm]

theorem commit_state (w : Working) (untilExhausted : Bool) (e : Edge) :
    (w.commit t untilExhausted e).state = w.state.commit t untilExhausted e := by
  unfold commit State.commit
  dsimp only
  split <;> rfl

/-- A turn, without the buffer. -/
def Turn.plain : Turn → BestFirst.Turn
  | .next w => .next w.state
  | .halt w => .halt w.state

/-- Turns do not look at the buffer. -/
theorem step_plain (w : Working) : (w.step b t).plain = b.step t w.state := by
  unfold step BestFirst.step
  dsimp only
  split
  · rfl
  · split
    · rfl
    · cases w.state.queue.pop.1 with
      | none => rfl
      | some e =>
          dsimp only [Turn.plain]
          split
          · rw [commit_state]
          · rfl

theorem run_state : ∀ (turns : Nat) (w : Working), (run b t turns w).state = b.run t turns w.state
  | 0, _ => rfl
  | turns + 1, w => by
      unfold run BestFirst.run
      rw [← step_plain]
      cases w.step b t with
      | next w => exact run_state turns w
      | halt w => rfl

end Working

theorem Desk.parse_fst (d : Desk) (t : Task) : (d.parse t).1 = (d.parser.parse t).1 := by
  simp only [Desk.parse, BestFirst.parse, search, Working.run_state, Working.seed_state]

theorem Desk.parser_parse (d : Desk) (t : Task) :
    (d.parse t).2.parser = (d.parser.parse t).2 := by
  simp only [Desk.parse, BestFirst.parse, search, Working.run_state, Working.seed_state]

/-! ## What a parse depends on -/

/-- Two parsers with the same settings, and with frontiers and queues of the same kind. -/
structure Alike (a b : BestFirst) : Prop where
  rule : a.rule = b.rule
  frontier : a.frontier.completes = b.frontier.completes
  queue : a.queue.kind = b.queue.kind
  maxChain : a.maxChain = b.maxChain
  maxPops : a.maxPops = b.maxPops
  untilExhausted : a.untilExhausted = b.untilExhausted

namespace Alike

variable {a b : BestFirst}

theorem refl (b : BestFirst) : Alike b b := ⟨rfl, rfl, rfl, rfl, rfl, rfl⟩

theorem trans {c : BestFirst} (h : Alike a b) (h' : Alike b c) : Alike a c where
  rule := h.rule.trans h'.rule
  frontier := h.frontier.trans h'.frontier
  queue := h.queue.trans h'.queue
  maxChain := h.maxChain.trans h'.maxChain
  maxPops := h.maxPops.trans h'.maxPops
  untilExhausted := h.untilExhausted.trans h'.untilExhausted

theorem symm (h : Alike a b) : Alike b a where
  rule := h.rule.symm
  frontier := h.frontier.symm
  queue := h.queue.symm
  maxChain := h.maxChain.symm
  maxPops := h.maxPops.symm
  untilExhausted := h.untilExhausted.symm

theorem start (h : Alike a b) (t : Task) : a.start t = b.start t := by
  simp only [BestFirst.start, h.maxChain, Frontier.reset_eq h.frontier, EdgeQueue.reset, h.queue]

theorem step (h : Alike a b) (t : Task) (s : State) : a.step t s = b.step t s := by
  simp only [BestFirst.step, h.maxPops, h.rule, h.untilExhausted]

theorem run (h : Alike a b) (t : Task) : ∀ (turns : Nat) (s : State),
    a.run t turns s = b.run t turns s
  | 0, _ => rfl
  | turns + 1, s => by
      unfold BestFirst.run
      rw [h.step]
      cases b.step t s with
      | next s => exact h.run t turns s
      | halt s => rfl

/-- Parsers that are alike search alike. -/
theorem search (h : Alike a b) (t : Task) : a.search t = b.search t := by
  simp only [BestFirst.search, h.start, h.run, h.maxChain, h.untilExhausted]

theorem parse_fst (h : Alike a b) (t : Task) : (a.parse t).1 = (b.parse t).1 := by
  simp only [BestFirst.parse, h.search]

end Alike

/-! ## What a parse leaves -/

/-- A search works with the kinds of frontier and of queue that its parser has. -/
structure OfKinds (b : BestFirst) (s : State) : Prop where
  frontier : s.frontier.completes = b.frontier.completes
  queue : s.queue.kind = b.queue.kind

theorem kind_offered (t : Task) (c : Chart) : ∀ (es : List Edge) (q : EdgeQueue),
    (offered t c q es).kind = q.kind
  | [], _ => rfl
  | _ :: es, q => (kind_offered t c es _).trans (q.kind_push _)

namespace OfKinds

variable {b : BestFirst} {t : Task} {s s' : State}

theorem start (b : BestFirst) (t : Task) : OfKinds b (b.start t) :=
  ⟨b.frontier.completes_reset _, b.queue.kind_reset⟩

theorem expand (h : OfKinds b s) (target : Target) (effect : Effect) :
    OfKinds b (s.expand t target effect) := by
  refine ⟨(completes_expand t s target effect).trans h.frontier, ?_⟩
  rw [State.queue_expand, kind_offered, h.queue]

theorem seed (h : OfKinds b s) (untilExhausted : Bool) : OfKinds b (s.seed t untilExhausted) := by
  have hwords := seed_induction (t := t) (I := fun _ => OfKinds b) (J := fun _ _ => OfKinds b)
    (fun _ _ _ h _ => ⟨h.frontier, h.queue⟩) (fun _ _ _ _ _ h => h.expand _ _)
    (fun _ _ _ h => h) h _ (Nat.le_refl _)
  exact ⟨hwords.frontier, hwords.queue⟩

theorem next (h : OfKinds b s) (hstep : b.step t s = .next s') : OfKinds b s' := by
  obtain ⟨-, e, -, hmoves⟩ := step_next hstep
  have htaken : s.queue.pop.2.kind = b.queue.kind := s.queue.kind_pop.trans h.queue
  cases hmoves with
  | skip declined chart_eq frontier_eq queue_eq phase_eq faulty_eq =>
      exact ⟨frontier_eq ▸ h.frontier, queue_eq ▸ htaken⟩
  | complete accepted completes stops chart_eq frontier_eq queue_eq phase_eq faulty_eq =>
      exact ⟨frontier_eq ▸ h.frontier, queue_eq ▸ htaken⟩
  | expand before state_eq accepted continues chart_eq frontier_eq queue_eq phase_eq faulty_eq =>
      subst state_eq
      exact expand ⟨frontier_eq ▸ h.frontier, queue_eq ▸ htaken⟩ _ _

theorem halt (h : OfKinds b s) (hstep : b.step t s = .halt s') : OfKinds b s' := by
  rcases halt_cases hstep with ⟨-, rfl⟩ | ⟨-, rfl⟩ | ⟨-, rfl⟩
  · exact h
  · exact ⟨h.frontier, h.queue⟩
  · exact ⟨h.frontier, s.queue.kind_pop.trans h.queue⟩

theorem run : ∀ (turns : Nat) {s : State}, OfKinds b s → OfKinds b (b.run t turns s)
  | 0, _, h => h
  | turns + 1, s, h => by
      unfold BestFirst.run
      cases hstep : b.step t s with
      | next s' => exact run turns (h.next hstep)
      | halt s' => exact h.halt hstep

theorem finish (h : OfKinds b s) (t : Task) : OfKinds b (finish t s) := ⟨h.frontier, h.queue⟩

theorem search (b : BestFirst) (t : Task) : OfKinds b (b.search t) := by
  rw [BestFirst.search]
  exact (run _ (seed (start b t) b.untilExhausted)).finish t

end OfKinds

/-- A parser keeps what its search ended with. -/
theorem parse_snd_eq (b : BestFirst) (t : Task) {last : State} (hlast : b.search t = last) :
    (b.parse t).2 = { b with
      frontier := last.frontier, queue := last.queue, phase := last.phase,
      history := last.history } := by
  subst hlast
  rfl

/-- A parser that has parsed a sentence is like before. -/
theorem alike_parse (b : BestFirst) (t : Task) : Alike (b.parse t).2 b := by
  have hkinds := OfKinds.search b t
  obtain ⟨last, hlast⟩ : ∃ last, b.search t = last := ⟨_, rfl⟩
  rw [hlast] at hkinds
  rw [parse_snd_eq b t hlast]
  exact ⟨rfl, hkinds.frontier, hkinds.queue, rfl, rfl, rfl⟩

/-- What parsers that are alike leave behind is the same, apart from the settings. -/
theorem Alike.parse_snd {a b : BestFirst} (h : Alike a b) (t : Task) :
    (a.parse t).2.frontier = (b.parse t).2.frontier ∧ (a.parse t).2.queue = (b.parse t).2.queue ∧
      (a.parse t).2.phase = (b.parse t).2.phase ∧ (a.parse t).2.history = (b.parse t).2.history := by
  obtain ⟨last, hlast⟩ : ∃ last, b.search t = last := ⟨_, rfl⟩
  rw [parse_snd_eq b t hlast, parse_snd_eq a t ((h.search t).trans hlast)]
  exact ⟨rfl, rfl, rfl, rfl⟩

end BestFirst
end BestParse
