import BestParse.Search.BottomUp.Filler

/-!
# A filler finds what its discovery finds

A filler is asked with whatever its buffers were left with.  Every buffer is emptied before it is
read, so what is proposed over a span depends on the discovery and on the extents alone
(`Filler.propose_fst`), and the extents are started anew for every sentence (`restart_eq`).

`Working.Shows` relates a search with buffers to one without them.  Each operation keeps it.
-/

namespace BestParse

/-- Extents that are started anew in old arrays are those of new ones. -/
@[simp] theorem Extents.restart_eq (x : Extents) (symbols n : Nat) :
    x.restart symbols n = .start symbols n := by
  simp only [restart, start, resize_take_zero]

namespace BottomUp

variable {g : Grammar} {limits : Limits} {c : Chart} {start stop : Nat}

/-! ## Buffers of children -/

/-- Whatever the list of left children holds, the proposals are those of an empty one. -/
theorem collectLefts_fst (lefts : List NonTerminal) :
    (collectLefts g limits c start stop lefts).1 = proposalsByLeftLists g limits c start stop := by
  calc (collectLefts g limits c start stop lefts).1
      = (limits.splits start stop).positions.foldl (fun list mid =>
          list ++ (c.leftChildren start mid).flatMap (proposalsOfLeft g c start mid stop)) [] :=
        (List.foldl_hom Prod.fst fun _ _ => by simp only [refill_eq]).symm
    _ = proposalsByLeftLists g limits c start stop := by
        rw [List.foldl_append_eq_append, List.nil_append, ← List.flatMap_def]
        rfl

/-- Whatever the lists of children hold, the best split points are those of empty ones. -/
theorem collectPairs_fst (lefts rights : List NonTerminal) :
    (collectPairs g limits c start stop ∅ lefts rights).1 = bestSplits g limits c start stop :=
  (List.foldl_hom Prod.fst fun _ _ => by simp only [refill_eq, pairsAt, pairsOf]).symm

namespace Filler

/-- The extents of a filler, or else those given. -/
def extentsOr (x : Extents) : Filler → Extents
  | .extents y => y
  | _ => x

/-- A filler proposes what its discovery proposes. -/
theorem propose_fst (f : Filler) (x : Extents) :
    (f.propose g limits c start stop).1
      = proposals g limits c (f.extentsOr x) start stop f.discovery := by
  cases f with
  | productions => rfl
  | leftLists lefts => exact collectLefts_fst lefts
  | pairs best lefts rights => simp only [propose, collectPairs_fst]; rfl
  | extents y => rfl

@[simp] theorem discovery_propose (f : Filler) :
    (f.propose g limits c start stop).2.discovery = f.discovery := by
  cases f <;> rfl

@[simp] theorem discovery_reset (f : Filler) (symbols n : Nat) :
    (f.reset symbols n).discovery = f.discovery := by
  cases f <;> rfl

@[simp] theorem discovery_ofDiscovery (x : Extents) (d : Discovery) :
    (ofDiscovery x d).discovery = d := by
  cases d <;> rfl

end Filler

/-! ## The search -/

/-- A search with buffers does what a search without them does.  Where the discovery keeps no
extents, those given stand for them. -/
structure Working.Shows (discovery : Discovery) (x : Extents) (w : Working) (s : State) : Prop where
  discovery : w.filler.discovery = discovery
  progress : w.progress = s.progress
  extents : w.filler.extentsOr x = s.extents
  faulty : w.faulty = s.faulty

namespace Working.Shows

variable {t : Task} {discovery : Discovery} {x : Extents} {w : Working} {s : State}

theorem finishCell (h : Shows discovery x w s) (start stop : Nat) :
    Shows discovery x (w.finishCell start stop) (s.finishCell discovery start stop) := by
  obtain ⟨progress, filler, faulty⟩ := w
  obtain ⟨rfl, rfl, hx, rfl⟩ := h
  cases filler with
  | extents y =>
    refine ⟨rfl, rfl, ?_, rfl⟩
    simp only [Filler.discovery, State.finishCell, if_true, ← hx]
    rfl
  | _ => exact ⟨rfl, rfl, hx, rfl⟩

theorem fillWord (h : Shows discovery x w s) (i : Nat) :
    Shows discovery x (w.fillWord t i) (s.fillWord t discovery i) := by
  obtain ⟨⟨chart, work⟩, filler, faulty⟩ := w
  obtain ⟨progress', extents, faulty'⟩ := s
  obtain ⟨hd, rfl, hx, rfl⟩ := h
  refine finishCell ?_ i (i + 1)
  exact ⟨hd, rfl, hx, rfl⟩

theorem fillOpen (h : Shows discovery x w s) (start stop : Nat) :
    Shows discovery x (w.fillOpen t start stop) (s.fillOpen t discovery start stop) := by
  obtain ⟨progress, filler, faulty⟩ := w
  obtain ⟨progress', extents, faulty'⟩ := s
  obtain ⟨rfl, rfl, rfl, rfl⟩ := h
  refine ⟨Filler.discovery_propose _, ?_, ?_, rfl⟩
  · simp only [Working.fillOpen, State.fillOpen, Filler.propose_fst filler x]
  · cases filler <;> rfl

theorem fillSpan (h : Shows discovery x w s) (start stop : Nat) :
    Shows discovery x (w.fillSpan t start stop) (s.fillSpan t discovery start stop) := by
  unfold Working.fillSpan State.fillSpan
  split
  · exact (h.fillOpen start stop).finishCell start stop
  · exact h.finishCell start stop

theorem run (h : Shows discovery x w s) (t : Task) : Shows discovery x (w.run t) (s.run t discovery) :=
  have hwords := List.foldl_rel (l := List.range t.sentence.size) h
    fun i _ _ _ hw => hw.fillWord i
  List.foldl_rel (l := widerSpans t.sentence.size) hwords
    fun ⟨start, stop⟩ _ _ _ hw => hw.fillSpan start stop

end Working.Shows

/-- Before the first cell, the extents are new, whatever the buffers hold. -/
theorem Working.shows_start (t : Task) (f : Filler) (maxChain : Nat) :
    Shows f.discovery (.start t.grammar.numNonterminals t.sentence.size)
      { progress := ⟨Chart.empty t.grammar t.sentence.size maxChain, {}⟩
        filler := f.reset t.grammar.numNonterminals t.sentence.size }
      (.start t maxChain) := by
  refine ⟨Filler.discovery_reset f _ _, rfl, ?_, rfl⟩
  cases f with
  | extents y => exact y.restart_eq _ _
  | _ => rfl

/-! ## Parsers -/

/-- A parser with buffers, as they may be after any sentences, has the settings of a parser. -/
structure Desk.Serves (d : Desk) (b : BottomUp) : Prop where
  discovery : d.filler.discovery = b.discovery
  maxChain : d.maxChain = b.maxChain

namespace Desk.Serves

variable {t : Task} {d : Desk} {b : BottomUp}

theorem desk (b : BottomUp) : b.desk.Serves b := ⟨Filler.discovery_ofDiscovery _ _, rfl⟩

theorem run (h : d.Serves b) (t : Task) :
    Working.Shows b.discovery (.start t.grammar.numNonterminals t.sentence.size)
      (Working.run t
        { progress := ⟨Chart.empty t.grammar t.sentence.size d.maxChain, {}⟩
          filler := d.filler.reset t.grammar.numNonterminals t.sentence.size })
      ((State.start t b.maxChain).run t b.discovery) := by
  rw [← h.discovery, ← h.maxChain]
  exact (Working.shows_start t d.filler d.maxChain).run t

/-- The report is that of a parser without buffers. -/
theorem parse_fst (h : d.Serves b) (t : Task) : (d.parse t).1 = (b.parse t).1 := by
  have hrun := h.run t
  simp only [Desk.parse, BottomUp.parse, hrun.progress, hrun.faulty]

/-- The extents are those of a parser without buffers. -/
theorem extents_parse (h : d.Serves b) (t : Task) :
    (d.parse t).2.filler.extentsOr (.start t.grammar.numNonterminals t.sentence.size)
      = (b.parse t).2.extents :=
  (h.run t).extents

/-- A parser that has parsed a sentence serves as before. -/
theorem parse_snd (h : d.Serves b) (t : Task) : (d.parse t).2.Serves b :=
  ⟨(h.run t).discovery, h.maxChain⟩

end Desk.Serves
end BottomUp
end BestParse
