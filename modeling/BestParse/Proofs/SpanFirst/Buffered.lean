import BestParse.Search.SpanFirst.Buffered
import BestParse.Proofs.SpanFirst.Course

/-!
# A visit leaves its table clean

The table of noted edges is not emptied between visits.  A visit relies on finding no entry in it,
and takes out every entry that it makes.  So `Clean` is what one visit leaves to the next, and one
sentence to the next, wherever the search is stopped: a search is stopped between visits only.

Within a visit, `Notes` relates the table to the list of the edges kept so far: the table looks up
in it, and the touched parents are its parents.  `Notes.note` is the step for one more edge, and
`Notes.releaseAll` takes all of them out.
-/

namespace BestParse
namespace SpanFirst

open Chart

/-! ## Kept edges by parent -/

/-- The edge kept for a parent. -/
def keptFor (kept : List Edge) (nt : NonTerminal) : Option Edge :=
  kept.find? fun e => e.parent = nt

/-- The better of an edge and the one kept before it, if there is one. -/
def betterOf (held : Option Edge) (e : Edge) : Edge :=
  match held with
  | none => e
  | some b => if e.fom.improves b.fom then e else b

theorem keptFor_cons (b : Edge) (rest : List Edge) (nt : NonTerminal) :
    keptFor (b :: rest) nt = if b.parent = nt then some b else keptFor rest nt := by
  unfold keptFor
  rw [List.find?_cons]
  by_cases h : b.parent = nt <;> simp [h]

theorem keptFor_eq_none {kept : List Edge} {nt : NonTerminal} :
    keptFor kept nt = none ↔ nt ∉ kept.map Edge.parent := by
  simp [keptFor]

/-- Keeping an edge changes what is kept for its own parent, and nothing else. -/
theorem keptFor_keepBest (e : Edge) (nt : NonTerminal) : ∀ kept : List Edge,
    keptFor (keepBest kept e) nt =
      if e.parent = nt then some (betterOf (keptFor kept nt) e) else keptFor kept nt
  | [] => keptFor_cons e [] nt
  | b :: rest => by
      unfold keepBest
      split
      · next hb =>
        have hparent : (if e.fom.improves b.fom then e else b).parent = e.parent := by
          split
          · rfl
          · exact hb
        rw [keptFor_cons, keptFor_cons, hparent, hb]
        split <;> rfl
      · next hb =>
        rw [keptFor_cons, keptFor_cons, keptFor_keepBest e nt rest]
        split
        · next hnt => rw [if_neg (fun he => hb (hnt.trans he.symm))]
        · rfl

/-- A parent is added when its first edge is kept. -/
theorem parents_keepBest (e : Edge) : ∀ kept : List Edge,
    (keepBest kept e).map Edge.parent =
      if (keptFor kept e.parent).isNone then kept.map Edge.parent ++ [e.parent]
      else kept.map Edge.parent
  | [] => rfl
  | b :: rest => by
      unfold keepBest
      rw [keptFor_cons]
      split
      · next hb =>
        rw [List.map_cons, List.map_cons]
        split <;> simp [hb]
      · rw [List.map_cons, parents_keepBest e rest]
        split <;> rfl

/-! ## Noting and releasing -/

namespace Working

/-- The table holds the edges that were kept. -/
structure Notes (n : Nat) (kept : List Edge) (w : Working) : Prop where
  size : w.bestOf.size = n
  held : ∀ nt, w.bestOf.getD nt none = keptFor kept nt
  touched : w.touched = kept.map Edge.parent
  nodup : (kept.map Edge.parent).Nodup

/-- No edge is noted. -/
abbrev Clean (n : Nat) (w : Working) : Prop := w.Notes n []

variable {n : Nat} {kept : List Edge} {w : Working}

/-- The table has nothing to do with the state. -/
theorem Notes.withState (h : w.Notes n kept) (s : State) : { w with state := s }.Notes n kept :=
  ⟨h.size, h.held, h.touched, h.nodup⟩

theorem size_note (w : Working) (e : Edge) : (w.note e).bestOf.size = w.bestOf.size := by
  unfold note
  dsimp only
  split <;> split <;> simp

/-- Noting an edge changes the entry of its own parent, and no other. -/
theorem getD_note (w : Working) {e : Edge} (he : e.parent < w.bestOf.size) (nt : NonTerminal) :
    (w.note e).bestOf.getD nt none =
      if e.parent = nt then some (betterOf (w.bestOf.getD nt none) e)
      else w.bestOf.getD nt none := by
  unfold note
  dsimp only
  cases hheld : w.bestOf.getD e.parent none with
  | none =>
      rw [if_pos rfl, getD_setIfInBounds he]
      split
      · next hnt => rw [← hnt, hheld]; rfl
      · rfl
  | some b =>
      dsimp only
      split
      · next hbetter =>
        rw [getD_setIfInBounds he]
        split
        · next hnt => rw [← hnt, hheld, betterOf, if_pos hbetter]
        · rfl
      · next hbetter =>
        split
        · next hnt => rw [← hnt, hheld, betterOf, if_neg hbetter]
        · rfl

/-- One more edge is noted as it is kept. -/
theorem Notes.note (h : w.Notes n kept) {e : Edge} (he : e.parent < n) :
    (w.note e).Notes n (keepBest kept e) where
  size := (size_note w e).trans h.size
  held nt := by rw [getD_note w (h.size.symm ▸ he), keptFor_keepBest, h.held]
  touched := by
    rw [parents_keepBest, ← h.touched, ← h.held]
    rfl
  nodup := by
    rw [parents_keepBest]
    split
    · next hnew =>
      have hout := keptFor_eq_none.1 (Option.isNone_iff_eq_none.1 hnew)
      refine List.nodup_append.2 ⟨h.nodup, List.nodup_singleton _, ?_⟩
      rintro nt hnt _ hparent rfl
      exact hout (List.mem_singleton.1 hparent ▸ hnt)
    · exact h.nodup

theorem Notes.noteAll : ∀ (es : List Edge) {kept : List Edge} {w : Working}, w.Notes n kept →
    (∀ e ∈ es, e.parent < n) →
      (es.foldl Working.note w).Notes n (es.foldl keepBest kept) ∧
      (es.foldl Working.note w).state = w.state
  | [], _, _, h, _ => ⟨h, rfl⟩
  | e :: es, _, _, h, hes =>
      noteAll es (h.note (hes e List.mem_cons_self)) fun f hf => hes f (List.mem_cons_of_mem e hf)

/-- Taking out the parents of the kept edges queues these edges and empties the table. -/
theorem releaseParents : ∀ (kept : List Edge) {w : Working}, w.bestOf.size = n →
    (∀ nt, w.bestOf.getD nt none = keptFor kept nt) → (kept.map Edge.parent).Nodup →
    ((kept.map Edge.parent).foldl release w).state = kept.foldl State.push w.state ∧
      ((kept.map Edge.parent).foldl release w).bestOf.size = n ∧
      ∀ nt, ((kept.map Edge.parent).foldl release w).bestOf.getD nt none = none
  | [], _, hsize, hheld, _ => ⟨rfl, hsize, hheld⟩
  | e :: kept, w, hsize, hheld, hnodup => by
      obtain ⟨hout, hnodup⟩ := List.nodup_cons.1 hnodup
      have hfound : w.bestOf.getD e.parent none = some e := by rw [hheld, keptFor_cons, if_pos rfl]
      have hlt : e.parent < w.bestOf.size := by
        by_contra hge
        rw [Array.getD_eq_getD_getElem?, Array.getElem?_eq_none (Nat.le_of_not_lt hge)] at hfound
        cases hfound
      have hrelease : w.release e.parent = { w with
          state := w.state.push e, bestOf := w.bestOf.setIfInBounds e.parent none } := by
        rw [release, hfound]
      rw [List.map_cons, List.foldl_cons, List.foldl_cons, hrelease]
      -- No other edge is kept for this parent, so the entries that are left are those of the rest.
      refine releaseParents kept (by simpa using hsize) (fun nt => ?_) hnodup
      dsimp only
      rw [getD_setIfInBounds hlt, hheld, keptFor_cons]
      split
      · next hnt => exact (keptFor_eq_none.2 (hnt ▸ hout)).symm
      · rfl

/-- All kept edges are queued in their order, and none is noted any longer. -/
theorem Notes.releaseAll (h : w.Notes n kept) :
    w.releaseAll.state = kept.foldl State.push w.state ∧ w.releaseAll.Clean n := by
  obtain ⟨hstate, hsize, hempty⟩ := releaseParents kept h.size h.held h.nodup
  rw [← h.touched] at hstate hsize hempty
  exact ⟨hstate, hsize, hempty, rfl, List.nodup_nil⟩

/-! ## Visits and turns -/

variable {t : Task}

/-- A visit that begins with a clean table does what a visit without a table does, and leaves
it clean. -/
theorem Clean.visit (hg : t.grammar.WellFormed) (h : w.Clean t.grammar.numNonterminals)
    (maxLocal start stop : Nat) :
    (w.visit t maxLocal start stop).state = w.state.visit t maxLocal start stop ∧
      (w.visit t maxLocal start stop).Clean t.grammar.numNonterminals := by
  have hparents : ∀ e ∈ ((binaryEdges t w.state.chart start stop).filter w.state.chart.accepts).map
      (rate t w.state.chart), e.parent < t.grammar.numNonterminals := by
    intro e he
    obtain ⟨f, hf, rfl⟩ := List.mem_map.1 he
    obtain ⟨id, l, r, mid, x, hjoins, -, rfl⟩ :=
      joins_of_mem_binaryEdges hg (List.mem_filter.1 hf).1
    exact hg.parent_lt id hjoins.production_lt
  obtain ⟨hnotes, hstate⟩ := Notes.noteAll _ (h.withState { w.state with
    work := { w.state.work with
      built := w.state.work.built + (binaryEdges t w.state.chart start stop).length }
    faulty := w.state.faulty || isFaulty t w.state.chart start stop }) hparents
  obtain ⟨hreleased, hclean⟩ := hnotes.releaseAll
  rw [hstate] at hreleased
  exact ⟨congrArg (State.drain t maxLocal) hreleased, hclean.withState _⟩

/-- A turn, without the table. -/
def Turn.plain : Turn → SpanFirst.Turn
  | .next w => .next w.state
  | .halt w => .halt w.state

/-- What a turn leaves, whether the search goes on or not. -/
def Turn.working : Turn → Working
  | .next w => w
  | .halt w => w

/-- A turn that begins with a clean table is a turn without a table, and leaves it clean. -/
theorem Clean.step (hg : t.grammar.WellFormed) (h : w.Clean t.grammar.numNonterminals)
    (p : SpanFirst) :
    (w.step p t).plain = p.step t w.state ∧
      (w.step p t).working.Clean t.grammar.numNonterminals := by
  unfold Working.step SpanFirst.step
  dsimp only
  split
  · exact ⟨rfl, h⟩
  · cases w.state.top? with
    | none => exact ⟨rfl, h⟩
    | some top =>
        obtain ⟨⟨start, stop⟩, fom⟩ := top
        dsimp only
        split
        · exact ⟨rfl, h.withState _⟩
        · obtain ⟨hstate, hclean⟩ := Clean.visit hg (h.withState { w.state with
            keys := w.state.keys.erase (start, stop)
            work := { w.state.work with visits := w.state.work.visits + 1 }
            notices := w.state.notices.push (.spanVisited start stop fom) }) p.maxLocal start stop
          refine ⟨?_, hclean.withState _⟩
          rw [Turn.plain, hstate]

theorem Clean.run (hg : t.grammar.WellFormed) (p : SpanFirst) : ∀ (turns : Nat) {w : Working},
    w.Clean t.grammar.numNonterminals →
    (run p t turns w).state = p.run t turns w.state ∧
      (run p t turns w).Clean t.grammar.numNonterminals
  | 0, _, h => ⟨rfl, h⟩
  | turns + 1, w, h => by
      obtain ⟨hplain, hclean⟩ := Clean.step hg h p
      unfold Working.run SpanFirst.run
      rw [← hplain]
      cases hstep : w.step p t with
      | next w' =>
          rw [hstep] at hclean
          exact Clean.run hg p turns hclean
      | halt w' =>
          rw [hstep] at hclean
          exact ⟨rfl, hclean⟩

/-- A clean table is that of a new parser. -/
theorem Clean.eq_new (h : w.Clean n) : w.bestOf = Array.replicate n none ∧ w.touched = [] := by
  refine ⟨Array.ext (h.size.trans Array.size_replicate.symm) fun i hi _ => ?_, h.touched⟩
  have hempty := h.held i
  rw [Array.getD_eq_getD_getElem?, Array.getElem?_eq_getElem hi] at hempty
  rw [Array.getElem_replicate]
  exact hempty

theorem clean_new (n : Nat) (s : State) :
    { state := s, bestOf := Array.replicate n none : Working }.Clean n where
  size := Array.size_replicate
  held nt := by
    rw [Array.getD_eq_getD_getElem?, Array.getElem?_replicate]
    split <;> rfl
  touched := rfl
  nodup := List.nodup_nil

end Working

/-! ## Parsers -/

/-- What a parse reports, from where the search ended. -/
def reportOf (t : Task) (s : State) : Report where
  chart := s.chart
  outcome := s.chart.outcome t.grammar
  work := s.work
  notices := s.notices.push (.spansEnded t.sentence.size s.work.visits s.work.committed
    (s.chart.outcome t.grammar))
  faulty := s.faulty

theorem parse_eq_reportOf (p : SpanFirst) (t : Task) {last : State}
    (hlast : p.run t (turns (seeded p t).chart) (seeded p t) = last) :
    p.parse t = reportOf t last := by
  subst hlast
  rfl

theorem Desk.parse_eq_reportOf (d : Desk) (t : Task) {last : Working}
    (hlast : Working.run d.parser t (turns (seeded d.parser t).chart)
      { state := seeded d.parser t, bestOf := d.bestOf, touched := d.touched } = last) :
    d.parse t =
      (reportOf t last.state, { d with bestOf := last.bestOf, touched := last.touched }) := by
  subst hlast
  rfl

/-- A new parser reports what a parser without a table reports, and is as good as new
afterwards. -/
theorem desk_parse {t : Task} (hg : t.grammar.WellFormed) (p : SpanFirst) :
    (p.desk t.grammar).parse t = (p.parse t, p.desk t.grammar) := by
  obtain ⟨hstate, hclean⟩ := Working.Clean.run hg p (turns (seeded p t).chart)
    (Working.clean_new t.grammar.numNonterminals (seeded p t))
  obtain ⟨last, hlast⟩ : ∃ last, Working.run p t (turns (seeded p t).chart)
    { state := seeded p t, bestOf := Array.replicate t.grammar.numNonterminals none } = last :=
    ⟨_, rfl⟩
  rw [hlast] at hstate hclean
  rw [(p.desk t.grammar).parse_eq_reportOf t hlast, parse_eq_reportOf p t hstate.symm,
    hclean.eq_new.1, hclean.eq_new.2]
  rfl

end SpanFirst
end BestParse
