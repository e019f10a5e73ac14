import BestParse.Proofs.BestFirst.Course

/-!
# Ghosts find what a scan finds

Whenever a search expands a slot, a ghost frontier makes the same binary edges as a scan of
all neighbouring spans, and none of them twice.

* The places around a slot are different from each other, for a ghost frontier because the
  slots it tracks are (`Frontier.nodup_places`), and different places make different edges.
* A ghost frontier finds only places that a scan finds (`Frontier.mem_scanPlaces`).  It misses
  a place when the other child is not tracked.  Then the other child is either without a
  score, and nothing is made there, or pending.  What is pending has the span of the slot
  under expansion and cannot stand beside it (`Regular.binaries_perm`).

`Expands` lists the expansions of a search: one for each slot that a word populates, while
other slots of the word are still pending, and one for each commit that does not end the
search.
-/

namespace BestParse

variable {g : Grammar} {n : Nat} {slots : List Slot} {x : Slot}

/-! ## Places are different -/

namespace GhostTable

theorem nodup_leftHalves (hg : g.WellFormed) (key : Nat × Nat) (y : Slot) :
    (leftHalves g n key y).Nodup := by
  unfold leftHalves
  split
  · refine ((hg.nodup_find (.left y.symbol)).filter _).map fun id id' heq => ?_
    injection heq
  · exact List.nodup_nil

theorem nodup_rightHalves (hg : g.WellFormed) (key : Nat × Nat) (y : Slot) :
    (rightHalves g key y).Nodup := by
  unfold rightHalves
  split
  · refine ((hg.nodup_find (.right y.symbol)).filter _).map fun id id' heq => ?_
    injection heq
  · exact List.nodup_nil

/-- A left half tells the slot that left it. -/
theorem slot_eq_of_mem_leftHalves (hg : g.WellFormed) {key : Nat × Nat} {y y' : Slot}
    {ghost : Ghost} (h : ghost ∈ leftHalves g n key y) (h' : ghost ∈ leftHalves g n key y') :
    y = y' := by
  obtain ⟨hstop, -, -, hexp, hanchor⟩ := (mem_leftHalves hg).1 h
  obtain ⟨hstop', -, -, hexp', hanchor'⟩ := (mem_leftHalves hg).1 h'
  obtain ⟨start, stop, symbol⟩ := y
  obtain ⟨start', stop', symbol'⟩ := y'
  cases hexp.symm.trans hexp'
  cases hstop.trans hstop'.symm
  cases hanchor.symm.trans hanchor'
  rfl

theorem slot_eq_of_mem_rightHalves (hg : g.WellFormed) {key : Nat × Nat} {y y' : Slot}
    {ghost : Ghost} (h : ghost ∈ rightHalves g key y) (h' : ghost ∈ rightHalves g key y') :
    y = y' := by
  obtain ⟨hstart, -, -, hexp, hanchor⟩ := (mem_rightHalves hg).1 h
  obtain ⟨hstart', -, -, hexp', hanchor'⟩ := (mem_rightHalves hg).1 h'
  obtain ⟨start, stop, symbol⟩ := y
  obtain ⟨start', stop', symbol'⟩ := y'
  cases hexp.symm.trans hexp'
  cases hstart.trans hstart'.symm
  cases hanchor.symm.trans hanchor'
  rfl

/-- The halves that different slots leave are different. -/
theorem nodup_halves {halves : Slot → List Ghost} (heach : ∀ y, (halves y).Nodup)
    (hslot : ∀ y y' ghost, ghost ∈ halves y → ghost ∈ halves y' → y = y') (h : slots.Nodup) :
    (slots.flatMap halves).Nodup := by
  refine List.nodup_flatMap.2 ⟨fun y _ => heach y, h.imp ?_⟩
  intro y y' hne ghost hmem hmem'
  exact hne (hslot y y' ghost hmem hmem')

theorem nodup_places (hg : g.WellFormed) (h : slots.Nodup) (hx : x.start ≠ x.stop) :
    ((ofSlots g n slots).places x).Nodup := by
  unfold places
  rw [awaitingRight_ofSlots, awaitingLeft_ofSlots]
  refine List.nodup_append.2 ⟨?_, ?_, ?_⟩
  · refine (nodup_halves (nodup_leftHalves hg _)
      (fun _ _ _ => slot_eq_of_mem_leftHalves hg) h).map fun ghost ghost' heq => ?_
    obtain ⟨id, anchor⟩ := ghost
    cases heq
    rfl
  · refine (nodup_halves (nodup_rightHalves hg _)
      (fun _ _ _ => slot_eq_of_mem_rightHalves hg) h).map fun ghost ghost' heq => ?_
    obtain ⟨id, anchor⟩ := ghost
    cases heq
    rfl
  · -- The slot is the right child at the one places and the left child at the others.
    rintro p hp p' hp' rfl
    obtain ⟨ghost, -, rfl⟩ := List.mem_map.1 hp
    obtain ⟨ghost', -, heq⟩ := List.mem_map.1 hp'
    exact hx (congrArg Place.mid heq).symm

end GhostTable

theorem nodup_scanPlaces (hg : g.WellFormed) (hx : x.start ≠ x.stop) :
    (scanPlaces g n x).Nodup := by
  unfold scanPlaces
  refine List.nodup_append.2 ⟨?_, ?_, ?_⟩
  · refine List.nodup_flatMap.2 ⟨fun stop _ => ?_, (List.nodup_range' 1).imp ?_⟩
    · refine (hg.nodup_find (.left x.symbol)).map fun id id' heq => ?_
      injection heq
    · intro stop stop' hne p hp hp'
      obtain ⟨id, -, rfl⟩ := List.mem_map.1 hp
      obtain ⟨id', -, heq⟩ := List.mem_map.1 hp'
      exact hne (congrArg Place.stop heq).symm
  · refine List.nodup_flatMap.2 ⟨fun start _ => ?_, List.nodup_range.imp ?_⟩
    · refine (hg.nodup_find (.right x.symbol)).map fun id id' heq => ?_
      injection heq
    · intro start start' hne p hp hp'
      obtain ⟨id, -, rfl⟩ := List.mem_map.1 hp
      obtain ⟨id', -, heq⟩ := List.mem_map.1 hp'
      exact hne (congrArg Place.start heq).symm
  · rintro p hp p' hp' rfl
    obtain ⟨stop, -, hmem⟩ := List.mem_flatMap.1 hp
    obtain ⟨start, -, hmem'⟩ := List.mem_flatMap.1 hp'
    obtain ⟨id, -, rfl⟩ := List.mem_map.1 hmem
    obtain ⟨id', -, heq⟩ := List.mem_map.1 hmem'
    exact hx (congrArg Place.mid heq)

namespace Frontier

variable {f : Frontier}

theorem nodup_places (hg : g.WellFormed) (h : f.Tracks g n slots) (hnodup : slots.Nodup)
    (hx : x.start ≠ x.stop) : (f.places g n x).Nodup := by
  cases f with
  | scan => exact nodup_scanPlaces hg hx
  | ghost table =>
      rw [Tracks] at h
      subst h
      exact GhostTable.nodup_places hg hnodup hx

/-- A frontier finds only places that a scan finds. -/
theorem mem_scanPlaces (hg : g.WellFormed) (h : f.Tracks g n slots)
    (hslots : ∀ y ∈ slots, IsSpan n y.start y.stop) (hx : IsSpan n x.start x.stop) {p : Place}
    (hp : p ∈ f.places g n x) : p ∈ scanPlaces g n x := by
  obtain ⟨hid, hlo, hhi, hstop⟩ := inside_of_mem_places hg h hslots hx hp
  rw [mem_places_scan hg hx]
  rcases child_of_mem_places hg h hx hp with ⟨r, hexp, hstart, hmid⟩ | ⟨l, hexp, hmid, hend⟩
  · exact Or.inl ⟨hid, ⟨r, hexp⟩, hstart, hmid, by omega, hstop⟩
  · exact Or.inr ⟨hid, ⟨l, hexp⟩, by omega, hmid, hend⟩

theorem completes_register (g : Grammar) (x : Slot) (f : Frontier) :
    (f.register g x).completes = f.completes := by
  cases f <;> rfl

end Frontier

/-- Different places make different edges. -/
theorem Place.eq_of_edge?_eq {t : Task} {c : Chart} {p p' : Place} {e : Edge}
    (h : p.edge? t c = some e) (h' : p'.edge? t c = some e) : p = p' := by
  obtain ⟨-, -, -, l, r, y, -, -, rfl⟩ := BestFirst.edge?_eq_some.1 h
  obtain ⟨-, -, -, l', r', y', -, -, heq⟩ := BestFirst.edge?_eq_some.1 h'
  injection heq with hid _ _ _ hstart hmid hstop
  obtain ⟨id, start, mid, stop⟩ := p
  obtain ⟨id', start', mid', stop'⟩ := p'
  cases hid
  cases hstart
  cases hmid
  cases hstop
  rfl

namespace BestFirst

open Chart

variable {t : Task} {chain : Nat} {b : BestFirst} {s s' : State}

/-! ## Edges around a slot -/

/-- The binary edges that a frontier makes around a slot. -/
def binaries (t : Task) (c : Chart) (f : Frontier) (x : Slot) : List Edge :=
  (f.places t.grammar c.size x).filterMap (Place.edge? t c)

section

variable (hg : t.grammar.WellFormed) {pending : Slot → Prop}
  (hregular : Regular t chain pending slots s) (hx : s.chart.HasSlot x)

include hg hregular hx

theorem Regular.nodup_binaries : (binaries t s.chart s.frontier x).Nodup := by
  unfold binaries
  rw [hregular.isFor.size_eq]
  refine List.Nodup.filterMap (fun p p' e hp hp' => Place.eq_of_edge?_eq hp hp') ?_
  exact Frontier.nodup_places hg hregular.tracks hregular.nodup
    (Nat.ne_of_lt (hregular.isSpan hx).1)

/-- Where an edge can be made around a slot, the frontier finds the place. -/
theorem Regular.mem_places (hlinked : s.chart.Linked t chain)
    (hpending : ∀ y, pending y → y.start = x.start ∧ y.stop = x.stop) {p : Place} {e : Edge}
    (hp : p ∈ scanPlaces t.grammar t.sentence.size x) (he : p.edge? t s.chart = some e) :
    p ∈ s.frontier.places t.grammar t.sentence.size x := by
  have hspan := hregular.isSpan hx
  -- The other child has a score, so it is populated, and it is not pending.
  have htracked : ∀ y, s.chart.HasSlot y → (s.chart.bestAt y).isReachable = true →
      y.start ≠ x.start → y ∈ slots := by
    intro y hy hreach hne
    rcases hregular.tracked y hy (hlinked.slot_holds y hy hreach) with hmem | hpend
    · exact hmem
    · exact absurd (hpending y hpend).1 hne
  obtain ⟨-, -, -, l, r, z, hexp, hz, -⟩ := edge?_eq_some.1 he
  obtain ⟨hreachl, hreachr, -⟩ := Score.combine_eq_some_iff.1 hz
  have hinside : p.Inside t.grammar t.sentence.size :=
    Frontier.inside_of_mem_places (f := .scan) hg trivial
      (show ∀ y ∈ ([] : List Slot), IsSpan t.sentence.size y.start y.stop from nofun) hspan hp
  obtain ⟨hl, hr⟩ := hasSlots_of_inside hregular.isFor hg hinside hexp
  have hspanl := hregular.isSpan hl
  have hspanr := hregular.isSpan hr
  obtain ⟨id, start, mid, stop⟩ := p
  obtain ⟨xstart, xstop, symbol⟩ := x
  dsimp only at *
  rcases (Frontier.mem_places_scan hg hspan).1 hp with
    ⟨hid, ⟨r', hexp'⟩, hstart, hmid, -, -⟩ | ⟨hid, ⟨l', hexp'⟩, -, hmid, hstop⟩
  · cases hexp.symm.trans hexp'
    dsimp only at hstart hmid
    subst hstart hmid
    exact Frontier.mem_places_of_left hg hregular.tracks hid hexp hspanl hspanr
      (htracked _ hr hreachr (Nat.ne_of_gt hspanl.1))
  · cases hexp.symm.trans hexp'
    dsimp only at hmid hstop
    subst hmid hstop
    exact Frontier.mem_places_of_right hg hregular.tracks hid hexp hspanl hspanr
      (htracked _ hl hreachl (Nat.ne_of_lt hspanl.1))

/-- A regular frontier makes the edges of a scan around a slot, if what is pending has the
slot's span. -/
theorem Regular.binaries_perm (hlinked : s.chart.Linked t chain)
    (hpending : ∀ y, pending y → y.start = x.start ∧ y.stop = x.stop) :
    (binaries t s.chart s.frontier x).Perm (binaries t s.chart .scan x) := by
  have hspan := hregular.isSpan hx
  have hscan : (binaries t s.chart .scan x).Nodup :=
    List.Nodup.filterMap (fun p p' e hp hp' => Place.eq_of_edge?_eq hp hp')
      (nodup_scanPlaces hg (Nat.ne_of_lt hspan.1))
  rw [List.perm_ext_iff_of_nodup (hregular.nodup_binaries hg hx) hscan]
  intro e
  unfold binaries
  rw [hregular.isFor.size_eq, List.mem_filterMap, List.mem_filterMap]
  constructor
  · rintro ⟨p, hp, he⟩
    exact ⟨p, Frontier.mem_scanPlaces hg hregular.tracks
      (fun y hy => hregular.isSpan (hregular.hasSlot y hy)) hspan hp, he⟩
  · rintro ⟨p, hp, he⟩
    exact ⟨p, hregular.mem_places hg hx hlinked hpending hp he, he⟩

end

/-! ## The expansions of a search -/

/-- The state after a word is seeded, before its slots are expanded. -/
def State.sown (t : Task) (s : State) (i : Nat) : State :=
  let (seeded, chart) := s.chart.seed t.grammar (t.sentence.token? i) i
  { s with chart, work := { s.work with committed := s.work.committed + seeded.size } }

/-- The states of the seeding: so many words are seeded, and some nonterminals of the last of
them are still to be expanded. -/
inductive Seeds (b : BestFirst) (t : Task) : Nat → List NonTerminal → State → Prop where
  /-- No word is seeded yet. -/
  | start : Seeds b t 0 [] (b.start t)
  /-- A word is seeded. -/
  | word {i : Nat} {s : State} (before : Seeds b t i [] s) (lt : i < t.sentence.size) :
      Seeds b t (i + 1) (s.chart.seed t.grammar (t.sentence.token? i) i).1.toList (s.sown t i)
  /-- A slot of the word is expanded. -/
  | slot {i : Nat} {nt : NonTerminal} {rest : List NonTerminal} {s : State}
      (before : Seeds b t (i + 1) (nt :: rest) s) :
      Seeds b t (i + 1) rest (s.expand t ⟨⟨i, i + 1, nt⟩, 0⟩ ⟨true, true⟩)

/-- The states in which the turns of a search begin. -/
inductive Reached (b : BestFirst) (t : Task) : State → Prop where
  /-- All words are seeded. -/
  | seeded : Reached b t ((b.start t).seed t b.untilExhausted)
  /-- A turn is taken. -/
  | next {s s' : State} (before : Reached b t s) (turn : b.step t s = .next s') : Reached b t s'

/-- The search expands a target in a state, after a commit with an effect. -/
inductive Expands (b : BestFirst) (t : Task) : State → Target → Effect → Prop where
  /-- A slot of a seeded word is expanded. -/
  | word {i : Nat} {nt : NonTerminal} {rest : List NonTerminal} {s : State}
      (seeds : Seeds b t (i + 1) (nt :: rest) s) :
      Expands b t s ⟨⟨i, i + 1, nt⟩, 0⟩ ⟨true, true⟩
  /-- The edge taken in a turn is better than its layer, and the search goes on. -/
  | turn {s : State} {e : Edge} (reached : Reached b t s) (searching : s.phase = .searching)
      (allowed : ¬ (0 < b.maxPops ∧ b.maxPops ≤ s.work.pops))
      (head : s.queue.toList.head? = some e) (accepted : b.rule.accepts s.chart e = true)
      (continues :
        ((s.chart.store t.grammar e).isComplete t.grammar && !b.untilExhausted) = false) :
      Expands b t (s.taken t e) e.target (s.chart.commit t.grammar e).1

theorem seedWord_eq (t : Task) (s : State) (i : Nat) :
    s.seedWord t i = (s.chart.seed t.grammar (t.sentence.token? i) i).1.toList.foldl
      (fun s nt => s.expand t ⟨⟨i, i + 1, nt⟩, 0⟩ ⟨true, true⟩) (s.sown t i) := by
  rw [Array.foldl_toList]
  rfl

theorem Seeds.expandAll {i : Nat} {nts : List NonTerminal} (h : Seeds b t (i + 1) nts s) :
    Seeds b t (i + 1) []
      (nts.foldl (fun s nt => s.expand t ⟨⟨i, i + 1, nt⟩, 0⟩ ⟨true, true⟩) s) := by
  induction nts generalizing s with
  | nil => exact h
  | cons nt rest ih => exact ih h.slot

/-- The seeding goes through these states up to the turns. -/
theorem seeds_words (b : BestFirst) (t : Task) : ∀ n ≤ t.sentence.size,
    Seeds b t n [] ((List.range n).foldl (fun s i => s.seedWord t i) (b.start t)) :=
  Loop.foldl_range (I := fun n s => Seeds b t n [] s)
    (fun i s hi h => seedWord_eq t s i ▸ (h.word hi).expandAll) .start

/-- A turn changes the frontier, and offers edges to the queue, only where it expands. -/
theorem Reached.expands (h : Reached b t s) (hstep : b.step t s = .next s') :
    (s'.frontier = s.frontier ∧ ∃ e, s'.history = s.history.push (.popped (some e))) ∨ ∃ e,
      Expands b t (s.taken t e) e.target (s.chart.commit t.grammar e).1 ∧
      s' = (s.taken t e).expand t e.target (s.chart.commit t.grammar e).1 := by
  obtain ⟨hphase, hallowed, e, htop, rfl⟩ := next_iff.1 hstep
  unfold turned
  split
  · next haccepted =>
    split
    · exact Or.inl ⟨rfl, e, rfl⟩
    · next hgoes =>
      exact Or.inr ⟨e, .turn h hphase hallowed htop haccepted (Bool.not_eq_true _ ▸ hgoes), rfl⟩
  · exact Or.inl ⟨rfl, e, rfl⟩

/-! ## Frontiers keep their kind -/

theorem completes_expand (t : Task) (s : State) (target : Target) (effect : Effect) :
    (s.expand t target effect).frontier.completes = s.frontier.completes := by
  rw [State.frontier_expand]
  split
  · exact Frontier.completes_register _ _ _
  · rfl

theorem Seeds.completes {i : Nat} {nts : List NonTerminal} (h : Seeds b t i nts s) :
    s.frontier.completes = b.frontier.completes := by
  induction h with
  | start =>
      change (b.frontier.reset t.sentence.size).completes = _
      cases b.frontier <;> rfl
  | word before lt ih => exact ih
  | slot before ih => exact (completes_expand _ _ _ _).trans ih

theorem Reached.completes (h : Reached b t s) :
    s.frontier.completes = b.frontier.completes := by
  induction h with
  | seeded => exact (seeds_words b t _ (Nat.le_refl _)).completes
  | next before turn ih =>
      rcases before.expands turn with ⟨heq, -⟩ | ⟨e, -, rfl⟩
      · rw [heq]
        exact ih
      · exact (completes_expand _ _ _ _).trans ih

theorem Expands.completes {target : Target} {effect : Effect} (h : Expands b t s target effect) :
    s.frontier.completes = b.frontier.completes := by
  cases h with
  | word seeds => exact seeds.completes
  | turn reached searching allowed head accepted continues => exact reached.completes

/-! ## Expansions are regular -/

theorem Seeds.sowing (hg : t.grammar.WellFormed) {words : Nat} {nts : List NonTerminal}
    (h : Seeds b t words nts s) :
    Sowing t b.maxChain (fun _ _ => True) words (wordSlots (words - 1) nts) s := by
  induction h with
  | start => exact sowing_start b t _
  | word before lt ih => exact ih.word hg (fun _ _ _ => trivial) lt _
  | slot before ih => exact ih.slot hg

theorem Reached.steady (hg : t.grammar.WellFormed) (h : Reached b t s) :
    Steady t b.maxChain s ∧ OnCourse t b.maxChain (fun _ _ => True) s := by
  induction h with
  | seeded => exact ⟨steady_seed hg b, onCourse_seed hg (fun _ _ _ => trivial) b⟩
  | next before turn ih =>
      exact ⟨(steady_next hg ih.1 turn).1, ih.2.next hg ih.1 (fun _ _ _ => trivial) turn⟩

/-- Where a slot is expanded, what is pending has its span. -/
theorem Expands.regular (hg : t.grammar.WellFormed) {target : Target} {effect : Effect}
    (h : Expands b t s target effect) :
    s.chart.Linked t b.maxChain ∧ s.chart.HasSlot target.slot ∧
      ∃ pending slots, Regular t b.maxChain pending slots s ∧
        ∀ y, pending y → y.start = target.slot.start ∧ y.stop = target.slot.stop := by
  cases h with
  | @word i nt rest s seeds =>
      obtain ⟨⟨slots, hseeding⟩, hcourse⟩ := seeds.sowing hg
      refine ⟨(Course.linked hcourse hg).1, (hseeding.fresh _ List.mem_cons_self).1, _, slots,
        hseeding.regular, fun y hy => ?_⟩
      obtain ⟨hstart, hstop, -⟩ := mem_wordSlots.1 hy
      exact ⟨hstart, hstop⟩
  | @turn s e reached searching allowed head accepted continues =>
      obtain ⟨⟨pending, slots, hregular, hnone⟩, hcourse⟩ := reached.steady hg
      have htarget : s.chart.HasTarget e.target := hregular.queued e (List.mem_of_mem_head? head)
      have hcommit : OnCourse t b.maxChain _ (s.taken t e) := hcourse.commit head trivial rfl rfl
      refine ⟨(Course.linked hcommit hg).1, htarget.1, _, slots,
        hregular.store htarget rfl rfl rfl fun f hf => ?_, ?_⟩
      · change f ∈ s.queue.pop.2.toList at hf
        rw [EdgeQueue.toList_pop] at hf
        exact List.mem_of_mem_tail hf
      · rintro y (hold | ⟨rfl, -⟩)
        · exact absurd hold (hnone searching y)
        · exact ⟨rfl, rfl⟩

/-- Wherever a search with a ghost frontier expands a slot, the ghosts make the binary edges
that a scan of the same chart makes, each once. -/
theorem ghosts_match_scan {d : Draft} {t : Task} (hbuild : d.build = .ok t.grammar)
    {b : BestFirst} {before : GhostTable} (hfrontier : b.frontier = .ghost before) {s : State}
    {target : Target} {effect : Effect} (h : Expands b t s target effect) :
    ∃ table, s.frontier = .ghost table ∧
      (binaries t s.chart (.ghost table) target.slot).Perm
        (binaries t s.chart .scan target.slot) ∧
      (binaries t s.chart (.ghost table) target.slot).Nodup := by
  have hg := wellFormed_of_build hbuild
  have hcompletes := h.completes
  obtain ⟨hlinked, hslot, pending, slots, hregular, hpending⟩ := h.regular hg
  have hperm := hregular.binaries_perm hg hslot hlinked hpending
  have hnodup := hregular.nodup_binaries hg hslot
  rw [hfrontier] at hcompletes
  cases hkind : s.frontier with
  | scan =>
      rw [hkind] at hcompletes
      cases hcompletes
  | ghost table =>
      rw [hkind] at hperm hnodup
      exact ⟨table, rfl, hperm, hnodup⟩

/-- In the second turn of a search, the second word meets the ghost that the first has left. -/
theorem ghosts_match_scan_circular :
    ∃ s target effect table,
      Expands (.new .ghost .inside .stable) circularTask s target effect ∧
      s.frontier = .ghost table ∧
      (binaries circularTask s.chart .scan target.slot).length = 1 ∧
      (binaries circularTask s.chart (.ghost table) target.slot).Perm
        (binaries circularTask s.chart .scan target.slot) := by
  let b : BestFirst := .new .ghost .inside .stable
  let first := (b.start circularTask).seed circularTask b.untilExhausted
  let second := b.run circularTask 1 first
  let e := Edge.unary circularTask.grammar 1 1 2 1 (.ofWholeUnits (-3))
  have hreached : Reached b circularTask second := by
    refine .next .seeded (s := first) ?_
    cases hstep : b.step circularTask first with
    | next s => simp [second, run, hstep]
    | halt s =>
        obtain ⟨-, -, hended⟩ := step_halt hstep
        exact absurd (hended rfl) (by decide +kernel)
  have hexpands : Expands b circularTask (second.taken circularTask e) e.target _ :=
    .turn hreached (by decide +kernel) (by decide +kernel) (by decide +kernel) (by decide +kernel)
      (by decide +kernel)
  obtain ⟨table, hfrontier, hperm, -⟩ := ghosts_match_scan circularDraft_builds rfl hexpands
  exact ⟨_, _, _, table, hexpands, hfrontier, by decide +kernel, hperm⟩

end BestFirst
end BestParse
