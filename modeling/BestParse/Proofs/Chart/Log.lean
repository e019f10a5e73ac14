import BestParse.Proofs.Chart.Course

/-!
# Logs of commits

A chart changes only when an edge is committed, so the charts that a search has between its
steps are the beginnings of its log, replayed.  What a search commits is read off its definition,
function by function; `Chart.loopLog` does this for loops, and `seedEdges` for the seeding of a
word.

`Leads` says that the log of a piece of a search is the right one: replaying it gives the chart
that the piece leaves, it is as long as the search counts, and every beginning of it is a course
of improving commits.  It composes along the definition of the search, so what holds on such
courses holds of every chart in between.  A search that is left early has committed a beginning
of its log, and its chart is a *stage* of it (`IsStage`).
-/

namespace BestParse
namespace Chart

/-! ## Replaying -/

/-- The chart after some commits. -/
def replay (g : Grammar) (c : Chart) (es : List Edge) : Chart :=
  es.foldl (fun c e => c.store g e) c

theorem replay_append (g : Grammar) (c : Chart) (es es' : List Edge) :
    c.replay g (es ++ es') = (c.replay g es).replay g es' :=
  List.foldl_append

/-- What a loop commits, from what each of its rounds does. -/
def loopLog {σ α : Type} (step : σ → α → σ) (log : σ → α → List Edge) : σ → List α → List Edge
  | _, [] => []
  | s, a :: as => log s a ++ loopLog step log (step s a) as

theorem loopLog_append {σ α : Type} (step : σ → α → σ) (log : σ → α → List Edge) :
    ∀ (as bs : List α) (s : σ),
      loopLog step log s (as ++ bs) =
        loopLog step log s as ++ loopLog step log (as.foldl step s) bs
  | [], _, _ => rfl
  | a :: as, bs, s => by
      rw [List.cons_append, loopLog, loopLog, loopLog_append step log as, List.append_assoc]
      rfl

/-- What a loop commits begins with what it commits when it is left early. -/
theorem loopLog_mono {σ α : Type} (step : σ → α → σ) (log : σ → α → List Edge) (s : σ)
    {as bs : List α} (h : as <+: bs) : loopLog step log s as <+: loopLog step log s bs := by
  obtain ⟨rest, rfl⟩ := h
  rw [loopLog_append]
  exact List.prefix_append _ _

/-- The first words begin the words. -/
theorem range_mono {i n : Nat} (h : i ≤ n) : List.range i <+: List.range n := by
  rw [List.prefix_iff_eq_take, List.length_range, List.take_range, Nat.min_eq_left h]

/-- The chart is one that a log leads through. -/
def IsStage (g : Grammar) (c : Chart) (log : List Edge) (c' : Chart) : Prop :=
  ∃ k, c' = c.replay g (log.take k)

theorem isStage_of_prefix {g : Grammar} {c : Chart} {log log' : List Edge} (h : log <+: log') :
    c.IsStage g log' (c.replay g log) :=
  ⟨log.length, by rw [← List.prefix_iff_eq_take.1 h]⟩

/-! ## Seeding -/

/-- The lexical edges that seeding a word commits, in order. -/
def seedEdges (g : Grammar) (i : Nat) : Chart → List ProductionId → List Edge
  | _, [] => []
  | c, id :: ids =>
    if c.accepts (Edge.lexical g id i) then
      Edge.lexical g id i :: seedEdges g i (c.store g (Edge.lexical g id i)) ids
    else seedEdges g i c ids

theorem seedEdges_sublist (g : Grammar) (i : Nat) : ∀ (ids : List ProductionId) (c : Chart),
    (c.seedEdges g i ids).Sublist (ids.map fun id => Edge.lexical g id i)
  | [], _ => .slnil
  | id :: ids, c => by
      unfold seedEdges
      split
      · exact (seedEdges_sublist g i ids _).cons_cons _
      · exact (seedEdges_sublist g i ids c).cons _

theorem seedEdges_append (g : Grammar) (i : Nat) (id : ProductionId) :
    ∀ (ids : List ProductionId) (c : Chart),
      c.seedEdges g i (ids ++ [id]) = c.seedEdges g i ids ++
        if (c.replay g (c.seedEdges g i ids)).accepts (Edge.lexical g id i) then
          [Edge.lexical g id i]
        else []
  | [], _ => rfl
  | first :: ids, c => by
      rw [List.cons_append, seedEdges, seedEdges]
      split
      · rw [seedEdges_append g i id ids]
        rfl
      · exact seedEdges_append g i id ids c

/-- Replaying what a word commits seeds it. -/
theorem seed_log (g : Grammar) (c : Chart) (word : Option WordId) (i : Nat) :
    (c.seed g word i).2 = c.replay g (c.seedEdges g i (g.lexicalWith word)) ∧
      (c.seed g word i).1.size = (c.seedEdges g i (g.lexicalWith word)).length := by
  rw [seed_eq]
  induction g.lexicalWith word using List.reverseRecOn with
  | nil => exact ⟨rfl, rfl⟩
  | append_singleton ids id ih =>
      obtain ⟨hchart, hsize⟩ := ih
      rw [seedAll_append, seedEdges_append, hchart]
      split
      · rw [replay_append, List.length_append, Array.size_push, hsize]
        exact ⟨rfl, rfl⟩
      · rw [List.append_nil]
        exact ⟨hchart, hsize⟩

/-! ## Logs that lead from one chart to another -/

variable {t : Task} {chain : Nat} {c c' c'' : Chart} {n n' n'' : Nat} {log log' : List Edge}
  {hand hand' : List Edge}

/-- Replaying the log leads from one chart and count of commits to another, along a course of
improving commits. -/
structure Leads (t : Task) (chain : Nat) (c : Chart) (n : Nat) (log : List Edge) (c' : Chart)
    (n' : Nat) : Prop where
  chart_eq : c' = c.replay t.grammar log
  count_eq : n' = n + log.length
  along : ∀ k, ∃ hand, Improving t chain (c.replay t.grammar (log.take k)) hand

namespace Leads

theorem refl (h : Improving t chain c hand) (n : Nat) : Leads t chain c n [] c n where
  chart_eq := rfl
  count_eq := rfl
  along k := by
    rw [List.take_nil]
    exact ⟨hand, h⟩

theorem trans (h : Leads t chain c n log c' n') (h' : Leads t chain c' n' log' c'' n'') :
    Leads t chain c n (log ++ log') c'' n'' where
  chart_eq := by rw [replay_append, ← h.chart_eq, h'.chart_eq]
  count_eq := by rw [h'.count_eq, h.count_eq, List.length_append, Nat.add_assoc]
  along k := by
    rw [List.take_append]
    by_cases hk : k ≤ log.length
    · rw [Nat.sub_eq_zero_of_le hk, List.take_zero, List.append_nil]
      exact h.along k
    · rw [List.take_of_length_le (Nat.le_of_not_le hk), replay_append, ← h.chart_eq]
      exact h'.along _

theorem improving (h : Leads t chain c n log c' n') : Improving t chain c' [] := by
  obtain ⟨hand, hcourse⟩ := h.along log.length
  rw [List.take_length, ← h.chart_eq] at hcourse
  exact hcourse.keep (List.forall_mem_nil _)

theorem isStage (h : Leads t chain c n log c' n') (hlog : log <+: log') :
    c.IsStage t.grammar log' c' :=
  h.chart_eq ▸ isStage_of_prefix hlog

/-- A step that commits at most one edge. -/
theorem step (h : Improving t chain c hand) (h' : Improving t chain c' hand') {e? : Option Edge}
    (hchart : c' = c.replay t.grammar e?.toList) (hcount : n' = n + e?.toList.length) :
    Leads t chain c n e?.toList c' n' where
  chart_eq := hchart
  count_eq := hcount
  along k := by
    cases k with
    | zero => exact ⟨hand, h⟩
    | succ k =>
        have hall : e?.toList.take (k + 1) = e?.toList := by
          cases e? with
          | none => rfl
          | some e => rw [Option.toList_some, List.take_succ_cons, List.take_nil]
        rw [hall, ← hchart]
        exact ⟨hand', h'⟩

/-- A loop whose rounds keep an invariant and lead on. -/
theorem loop {σ α : Type} (chart : σ → Chart) (count : σ → Nat) (step : σ → α → σ)
    (log : σ → α → List Edge) {I : σ → Prop}
    (hcourse : ∀ s, I s → ∃ hand, Improving t chain (chart s) hand) :
    ∀ (as : List α) (s : σ),
      (∀ a ∈ as, ∀ s, I s → I (step s a) ∧
        Leads t chain (chart s) (count s) (log s a) (chart (step s a)) (count (step s a))) →
      I s →
      I (as.foldl step s) ∧
        Leads t chain (chart s) (count s) (loopLog step log s as) (chart (as.foldl step s))
          (count (as.foldl step s))
  | [], s, _, hI => by
      obtain ⟨hand, h⟩ := hcourse s hI
      exact ⟨hI, refl h _⟩
  | a :: as, s, hround, hI => by
      obtain ⟨hI', hfirst⟩ := hround a List.mem_cons_self s hI
      obtain ⟨hend, hrest⟩ := loop chart count step log hcourse as (step s a)
        (fun b hb => hround b (List.mem_cons_of_mem a hb)) hI'
      exact ⟨hend, hfirst.trans hrest⟩

end Leads

/-- The edges that seeding a word commits lead to the chart seeded. -/
theorem leads_seedEdges (h : Improving t chain c hand) (hg : t.grammar.WellFormed) {i : Nat}
    (hi : i < t.sentence.size) (n : Nat) :
    Leads t chain c n (c.seedEdges t.grammar i (t.grammar.lexicalWith (t.sentence.token? i)))
      (c.seed t.grammar (t.sentence.token? i) i).2
      (n + (c.seed t.grammar (t.sentence.token? i) i).1.size) := by
  obtain ⟨hchart, hsize⟩ := seed_log t.grammar c (t.sentence.token? i) i
  rw [hchart, hsize]
  have hids : ∀ id ∈ t.grammar.lexicalWith (t.sentence.token? i), id < t.grammar.numProductions ∧
      (t.sentence.token? i).map .lexical = some (t.grammar.production id).expansion :=
    fun id hid => hg.mem_lexicalWith.1 hid
  clear hchart hsize
  generalize t.grammar.lexicalWith (t.sentence.token? i) = ids at hids ⊢
  induction ids generalizing c n with
  | nil => exact Leads.refl h n
  | cons id ids ih =>
      have hrest := fun id' hid' => hids id' (List.mem_cons_of_mem id hid')
      unfold seedEdges
      split
      · next haccepts =>
        obtain ⟨hlt, hword⟩ := hids id List.mem_cons_self
        obtain ⟨hlicensed, hscore⟩ := Edge.licensed_lexical hi hlt hword
        have hcommit := h.makeCommit hlicensed hscore haccepts
        have hfirst : Leads t chain c n (some (Edge.lexical t.grammar id i)).toList _ (n + 1) :=
          Leads.step h hcommit rfl rfl
        have hlog := hfirst.trans (ih hcommit (n + 1) hrest)
        rw [Nat.add_assoc, Nat.add_comm 1] at hlog
        exact hlog
      · exact ih h n hrest

end Chart
end BestParse
