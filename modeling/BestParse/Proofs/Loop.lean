/-!
# Loops, turn by turn

A search is a loop of turns.  Its definition gives it a number of turns to go, so that it is
defined for every input; `After` is the loop without such a number.  `Runs` says that a function
makes the turns one by one until a turn ends the loop.

If some measure goes down, the loop comes to such a turn (`Runs.halts`).  The states before it
are then all that the loop ever has (`After.le_of_halt`), and the number that was given made no
difference.
-/

namespace BestParse
namespace Loop

variable {σ : Type} {next halt : σ → σ → Prop} {run : Nat → σ → σ} {first s s' last : σ}
  {n m : Nat}

/-! ## Loops over positions -/

/-- An invariant of a loop over the first positions. -/
theorem foldl_range {I : Nat → σ → Prop} {f : σ → Nat → σ} {size : Nat}
    (hstep : ∀ i s, i < size → I i s → I (i + 1) (f s i)) (h : I 0 s) :
    ∀ n ≤ size, I n ((List.range n).foldl f s)
  | 0, _ => h
  | n + 1, hn => by
      rw [List.range_succ, List.foldl_append, List.foldl_cons, List.foldl_nil]
      exact hstep n _ hn (foldl_range hstep h n (Nat.le_of_succ_le hn))

/-! ## Running -/

/-- A function that makes up to so many turns, each of which goes on in one way or ends the
loop. -/
structure Runs (next halt : σ → σ → Prop) (run : Nat → σ → σ) : Prop where
  unique : ∀ {s s' s''}, next s s' → next s s'' → s' = s''
  stops : ∀ {s s' last}, halt s last → ¬ next s s'
  zero : ∀ s, run 0 s = s
  succ : ∀ turns s, (∃ s', next s s' ∧ run (turns + 1) s = run turns s') ∨
    halt s (run (turns + 1) s)

namespace Runs

variable (h : Runs next halt run) {I : σ → Prop}

include h

/-- An invariant of the turns holds where the running ends, with or without a turn that ends the
loop. -/
theorem ends (hnext : ∀ s s', I s → next s s' → I s') : ∀ (turns : Nat) (s : σ), I s →
    ∃ s', I s' ∧ (run turns s = s' ∨ halt s' (run turns s))
  | 0, s, hI => ⟨s, hI, Or.inl (h.zero s)⟩
  | turns + 1, s, hI => by
      rcases h.succ turns s with ⟨s', hstep, heq⟩ | hhalt
      · rw [heq]
        exact ends hnext turns s' (hnext s s' hI hstep)
      · exact ⟨s, hI, Or.inr hhalt⟩

/-- What the last turn keeps too holds in the end. -/
theorem keeps (hnext : ∀ s s', I s → next s s' → I s') (hhalt : ∀ s last, I s → halt s last → I last)
    (turns : Nat) (hI : I s) : I (run turns s) := by
  obtain ⟨s', hI', heq | hend⟩ := h.ends hnext turns s hI
  · rw [heq]
    exact hI'
  · exact hhalt s' _ hI' hend

/-- The loop comes to a turn that ends it when some measure goes down. -/
theorem halts (measure : σ → Nat)
    (hnext : ∀ s s', I s → next s s' → I s' ∧ measure s' < measure s) :
    ∀ (turns : Nat) (s : σ), I s → measure s < turns → ∃ s', I s' ∧ halt s' (run turns s)
  | 0, _, _, hlt => absurd hlt (Nat.not_lt_zero _)
  | turns + 1, s, hI, hlt => by
      rcases h.succ turns s with ⟨s', hstep, heq⟩ | hhalt
      · obtain ⟨hI', hless⟩ := hnext s s' hI hstep
        rw [heq]
        exact halts measure hnext turns s' hI' (by omega)
      · exact ⟨s, hI, hhalt⟩

end Runs

/-! ## Turn by turn -/

/-- A state that a loop is in after a number of turns. -/
inductive After (next : σ → σ → Prop) (first : σ) : Nat → σ → Prop where
  /-- Where the loop begins. -/
  | first : After next first 0 first
  /-- One more turn. -/
  | turn {n : Nat} {s s' : σ} (before : After next first n s) (turn : next s s') :
      After next first (n + 1) s'

namespace After

/-- What holds at first and after every turn holds throughout. -/
theorem keeps {I : Nat → σ → Prop} (hfirst : I 0 first)
    (hturn : ∀ n s s', I n s → next s s' → I (n + 1) s') (h : After next first n s) : I n s := by
  induction h with
  | first => exact hfirst
  | turn _ hnext ih => exact hturn _ _ _ ih hnext

variable (hruns : Runs next halt run)

include hruns

/-- The state is determined by the number of turns. -/
theorem unique (h : After next first n s) (h' : After next first n s') : s = s' := by
  induction h generalizing s' with
  | first =>
      cases h'
      rfl
  | turn _ hnext ih =>
      cases h' with
      | turn before' hnext' =>
          obtain rfl := ih before'
          exact hruns.unique hnext hnext'

/-- No state comes after one in which a turn ends the loop. -/
theorem le_of_halt (h : After next first n s) (hhalt : halt s last)
    (h' : After next first m s') : m ≤ n := by
  induction h' with
  | first => exact Nat.zero_le n
  | turn before hnext ih =>
      refine Nat.lt_of_le_of_ne ih ?_
      rintro rfl
      obtain rfl := unique hruns h before
      exact hruns.stops hhalt hnext

end After

end Loop
end BestParse
