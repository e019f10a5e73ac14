import BestParse.Search.BottomUp.Basic
import BestParse.Proofs.Loop
import BestParse.Proofs.BottomUp.Discovery

/-!
# Bottom-up search is exact

The cells are filled in the order of their width, so that a cell meets only finished
children.  `Filled` is the invariant: the cells that are done dominate their
derivations, the others are blank, and the extents know the slots of the cells that
are done.  Each cell filled adds its span to those done (`filled_fillWord`,
`filled_fillSpan`); a row of cells of one width leads to the next, and after the last
row the chart is exact (`exact_run`), whatever the discovery.
-/

namespace BestParse
namespace BottomUp

open Chart

variable {t : Task} {chain : Nat} {discovery : Discovery}

/-! ## Binary edges over a span -/

/-- The edge a proposal stands for. -/
def Proposal.edge? (g : Grammar) (start stop : Nat) (q : Proposal) : Option Edge :=
  (Score.combine (g.production q.production).logprob q.left q.right).map
    (Edge.binary g q.production start q.mid stop)

theorem Progress.fill_eq (g : Grammar) (limits : Limits) (start stop : Nat) :
    ∀ (list : List Proposal) (p : Progress),
      p.fill g limits start stop list =
        p.offerAll g limits (list.filterMap (Proposal.edge? g start stop))
  | [], _ => rfl
  | q :: list, p => by
      have ih := fill_eq g limits start stop list
        (p.offerBinary g limits q.production start q.mid stop q.left q.right).2
      refine ih.trans ?_
      rw [List.filterMap_cons]
      unfold Progress.offerBinary Proposal.edge?
      cases Score.combine (g.production q.production).logprob q.left q.right with
      | none => rfl
      | some x => rfl

section

variable {start stop : Nat} {p : Progress} {extents : Extents}

/-- The targets of binary edges over a span. -/
def OfBase (start stop : Nat) (τ : Target) : Prop := OfSpan start stop τ ∧ τ.layer = 0

theorem offerable_proposals (hg : t.grammar.WellFormed) (hc : p.chart.Sound t chain)
    (hstop : stop ≤ t.sentence.size) (hopen : t.limits.isOpen start stop = true) :
    ∀ e ∈ (proposals t.grammar t.limits p.chart extents start stop discovery).filterMap
        (Proposal.edge? t.grammar start stop), Offerable t chain (OfBase start stop) e := by
  intro e he
  obtain ⟨q, hq, hedge⟩ := List.mem_filterMap.1 he
  obtain ⟨x, hx, rfl⟩ := Option.map_eq_some_iff.1 hedge
  obtain ⟨hid, hmid, l, r, hexp, hleft, hright⟩ := fits_of_mem_proposals hg hc hstop hq
  rw [hleft, hright] at hx
  obtain ⟨hl, hr⟩ := Joins.hasSlots ⟨hid, hexp, hmid, hx⟩ hc.isFor hg hstop
  refine ⟨Score.combine_ne_nan (hg.finite _ hid) hx, fun hallows => ?_, ⟨rfl, rfl⟩, rfl⟩
  exact hc.attains.supported_binary hl hr hid hexp hopen hmid hallows hx

theorem extends_fill (discovery : Discovery) (extents : Extents) (hg : t.grammar.WellFormed)
    (hc : p.chart.Sound t chain) (hstop : stop ≤ t.sentence.size)
    (hopen : t.limits.isOpen start stop = true) :
    Extends t chain (OfBase start stop) p.chart
      (p.fill t.grammar t.limits start stop
        (proposals t.grammar t.limits p.chart extents start stop discovery)).chart := by
  rw [Progress.fill_eq]
  exact Progress.extends_offerAll hg _ hc (offerable_proposals hg hc hstop hopen)

/-- The proposals dominate a binary derivation over dominated children. -/
theorem dominates_fill (discovery : Discovery) (extents : Extents) (hg : t.grammar.WellFormed)
    (hc : p.chart.Sound t chain) {id : ProductionId} {L R : Derivation}
    (hD : (Derivation.binary id L R).Obeys t chain)
    (hdoml : p.chart.Dominates t L) (hdomr : p.chart.Dominates t R)
    (hknows : discovery = .extents → ∀ (D : Derivation) x, D.Obeys t chain →
      D.slot t.grammar = L.slot t.grammar ∨ D.slot t.grammar = R.slot t.grammar →
      D.score t.grammar = some x → x.isReachable = true → extents.Knows (D.slot t.grammar)) :
    (p.fill t.grammar t.limits L.start R.stop
      (proposals t.grammar t.limits p.chart extents L.start R.stop discovery)).chart.Dominates t
        (.binary id L R) := by
  intro x hx
  obtain ⟨x', hx', hle⟩ := hc.combine_of_dominates hg hD hdoml hdomr hx
  obtain ⟨hL, hR, hmeet, hid, hexp, hopen, hmid, hallows⟩ := hD
  have hstop := (Derivation.isSpan_of_obeys hR).2
  have hslot : R.slot t.grammar = ⟨L.stop, R.stop, R.symbol t.grammar⟩ := by
    rw [hmeet]
    rfl
  rw [hslot] at hx' hknows
  have hjoins : Joins t p.chart L.start R.stop id (L.symbol t.grammar) (R.symbol t.grammar) L.stop
      x' := ⟨hid, hexp, hmid, hx'⟩
  obtain ⟨hl, hr⟩ := hjoins.hasSlots hc.isFor hg hstop
  -- The extents know the slots of the children, since derivations attain their scores.
  have hknown : discovery = .extents → extents.Knows ⟨L.start, L.stop, L.symbol t.grammar⟩ ∧
      extents.Knows ⟨L.stop, R.stop, R.symbol t.grammar⟩ := by
    intro hext
    obtain ⟨D, hD, hDslot, hscore⟩ := hc.attained_best hl hjoins.left_reachable
    obtain ⟨E, hE, hEslot, hscore'⟩ := hc.attained_best hr hjoins.right_reachable
    rw [← hDslot, ← hEslot]
    exact ⟨hknows hext D _ hD (Or.inl hDslot) hscore hjoins.left_reachable,
      hknows hext E _ hE (Or.inr hEslot) hscore' hjoins.right_reachable⟩
  obtain ⟨q, hq, hparent, x'', hx'', hle'⟩ := finds_proposals hg hc hstop discovery hjoins hknown
  have hmem : Edge.binary t.grammar q.production L.start q.mid R.stop x'' ∈
      (proposals t.grammar t.limits p.chart extents L.start R.stop discovery).filterMap
        (Proposal.edge? t.grammar L.start R.stop) :=
    List.mem_filterMap.2 ⟨q, hq, Option.map_eq_some_iff.2 ⟨x'', hx'', rfl⟩⟩
  rw [← hparent] at hallows
  have hreached := Progress.le_scoreAt_offerAll hc.coherent
    (Progress.hasRoomFor_of_offerable hc hg (offerable_proposals hg hc hstop hopen)) hmem hallows
  have htarget : (Derivation.binary id L R).target t.grammar =
      (Edge.binary t.grammar q.production L.start q.mid R.stop x'').target := by
    change Target.mk ⟨L.start, R.stop, (t.grammar.production id).parent⟩ 0 =
      ⟨⟨L.start, R.stop, (t.grammar.production q.production).parent⟩, 0⟩
    rw [hparent]
  rw [Progress.fill_eq, htarget]
  exact Int.le_trans (Int.le_trans hle hle') hreached

end

/-! ## Cells done and cells to do -/

/-- Some cells are done, the others blank. -/
structure Filled (t : Task) (chain : Nat) (discovery : Discovery) (done : Nat → Nat → Prop)
    (s : State) : Prop where
  sound : s.progress.chart.Sound t chain
  dominates : ∀ D : Derivation, D.Obeys t chain → done D.start D.stop →
    s.progress.chart.Dominates t D
  blank : ∀ τ, s.progress.chart.HasTarget τ → ¬ done τ.slot.start τ.slot.stop →
    s.progress.chart.scoreAt τ = .unreachable
  sized : s.extents.Sized t.grammar.numNonterminals t.sentence.size
  knows : discovery = .extents → ∀ (D : Derivation) x, D.Obeys t chain → done D.start D.stop →
    D.score t.grammar = some x → x.isReachable = true → s.extents.Knows (D.slot t.grammar)

/-- The cells of a width less than `width` are done, and those of this width before
`first`. -/
def Before (width first start stop : Nat) : Prop :=
  stop < start + width ∨ stop = start + width ∧ start < first

theorem filled_start (t : Task) (chain : Nat) (discovery : Discovery) :
    Filled t chain discovery (Before 1 0) (State.start t chain) where
  sound := sound_empty t chain
  dominates D hD hdone := by
    obtain ⟨hlt, -⟩ := Derivation.isSpan_of_obeys hD
    unfold Before at hdone
    omega
  blank τ _ _ := by
    change ((empty _ _ _).layerAt τ).inside = _
    rw [layerAt_empty]
  sized := Extents.sized_start _ _
  knows _ D x hD hdone := by
    obtain ⟨hlt, -⟩ := Derivation.isSpan_of_obeys hD
    unfold Before at hdone
    omega

theorem Filled.congr {done done' : Nat → Nat → Prop} {s : State}
    (h : Filled t chain discovery done s)
    (hiff : ∀ start stop, IsSpan t.sentence.size start stop →
      (done' start stop ↔ done start stop)) : Filled t chain discovery done' s where
  sound := h.sound
  dominates D hD hdone := h.dominates D hD ((hiff _ _ (Derivation.isSpan_of_obeys hD)).1 hdone)
  blank τ hτ hnot := by
    refine h.blank τ hτ fun hdone => hnot ((hiff _ _ ?_).2 hdone)
    rw [← h.sound.isFor.size_eq]
    exact hτ.1.1
  sized := h.sized
  knows hext D x hD hdone :=
    h.knows hext D x hD ((hiff _ _ (Derivation.isSpan_of_obeys hD)).1 hdone)

theorem progress_finishCell (discovery : Discovery) (s : State) (start stop : Nat) :
    (s.finishCell discovery start stop).progress = s.progress := by
  unfold State.finishCell
  split <;> rfl

/-- A cell that was blank and now dominates its derivations is done. -/
theorem Filled.finishCell {width first : Nat} {s s' : State} (hg : t.grammar.WellFormed)
    (h : Filled t chain discovery (Before width first) s)
    (hspan : IsSpan t.sentence.size first (first + width))
    (hext : Extends t chain (OfSpan first (first + width)) s.progress.chart s'.progress.chart)
    (hdom : ∀ D : Derivation, D.Obeys t chain →
      OfSpan first (first + width) (D.target t.grammar) → s'.progress.chart.Dominates t D)
    (hsized : s'.extents.Sized t.grammar.numNonterminals t.sentence.size)
    (hkept : ∀ x, s.extents.Knows x → s'.extents.Knows x) :
    Filled t chain discovery (Before width (first + 1))
      (s'.finishCell discovery first (first + width)) := by
  have hprogress := progress_finishCell discovery s' first (first + width)
  have hcases : ∀ {start stop}, Before width (first + 1) start stop →
      Before width first start stop ∨ start = first ∧ stop = first + width := by
    intro start stop hdone
    unfold Before at hdone ⊢
    omega
  have hnts : ∀ nt ∈ s'.progress.chart.populated first (first + width),
      nt < t.grammar.numNonterminals := by
    intro nt hnt
    rw [← hext.sound.isFor.size_eq] at hspan
    rw [← hext.sound.isFor.symbols_eq]
    exact ((hext.sound.coherent.populated_iff _ _ _ hspan).1 hnt).1
  obtain ⟨hsized', hkept', hnew⟩ := Extents.extend_all
    (Nat.le_trans (Nat.le_of_lt hspan.1) hspan.2) hspan.2 _ hsized hnts
  refine ⟨hprogress ▸ hext.sound, ?_, ?_, ?_, ?_⟩
  · intro D hD hdone
    rw [hprogress]
    rcases hcases hdone with hbefore | hhere
    · exact hext.dominates h.sound hg hD (h.dominates D hD hbefore)
    · exact hdom D hD hhere
  · rw [hprogress]
    intro τ hτ hnot
    have hτ' := hext.grows.hasTarget.1 hτ
    rw [hext.frame τ hτ' ?_]
    · refine h.blank τ hτ' fun hdone => hnot ?_
      unfold Before at hdone ⊢
      omega
    · rintro ⟨hstart, hstop⟩
      apply hnot
      unfold Before
      omega
  · unfold State.finishCell
    split
    · exact hsized'
    · exact hsized
  · rintro rfl D x hD hdone hx hreach
    change (s'.extents.finish s'.progress.chart first (first + width)).Knows _
    rcases hcases hdone with hbefore | ⟨hstart, hstop⟩
    · exact hkept' _ (hkept _ (h.knows rfl D x hD hbefore hx hreach))
    · have hτ := hext.sound.isFor.hasTarget hg hD
      have hbest := Score.isReachable_mono hreach (hext.sound.coherent.best_number hτ.1)
        (hext.sound.rank_le_bestAt hg hD (hdom D hD ⟨hstart, hstop⟩) hx)
      have hmem := (hext.sound.coherent.populated_iff _ _ _ hτ.1.1).2 ⟨hτ.1.2, hbest⟩
      change D.symbol t.grammar ∈ s'.progress.chart.populated D.start D.stop at hmem
      rw [hstart, hstop] at hmem
      have hslot : D.slot t.grammar = ⟨first, first + width, D.symbol t.grammar⟩ := by
        rw [Derivation.slot, hstart, hstop]
      rw [hslot]
      exact hnew _ hmem

/-! ## Filling one more cell -/

theorem filled_fillWord (hg : t.grammar.WellFormed) {i : Nat} (hi : i < t.sentence.size)
    {s : State} (h : Filled t chain discovery (Before 1 i) s) :
    Filled t chain discovery (Before 1 (i + 1)) (s.fillWord t discovery i) := by
  have hspan : IsSpan t.sentence.size i (i + 1) := ⟨Nat.lt_succ_self i, hi⟩
  have hseed := extends_seed h.sound hg hi
  have hpasses := extends_unaryPasses (p := ⟨_, { s.progress.work with committed :=
    s.progress.work.committed + (s.progress.chart.seed t.grammar (t.sentence.token? i) i).1.size }⟩)
    hseed.sound hg hspan
  have hextends := (hseed.mono (P := OfSpan i (i + 1)) fun τ hτ => ⟨hτ.1, hτ.2.1⟩).trans hpasses
  refine h.finishCell hg hspan hextends ?_ h.sized fun _ hx => hx
  intro D hD hDspan
  refine dominates_unaryPasses hseed.sound hg hspan ?_ ?_ hD hDspan
  · -- Over one word, a derivation without unary productions at the root is a leaf.
    intro D hD hDspan hdepth
    cases D with
    | leaf id j =>
        obtain ⟨rfl, -⟩ := hDspan
        exact seed_dominates h.sound hg hD
    | unary id D => cases hdepth
    | binary id l r =>
        obtain ⟨hstart, hstop⟩ := hDspan
        change l.start = i at hstart
        change r.stop = i + 1 at hstop
        have hl := (Derivation.isSpan_of_obeys hD.1).1
        have hr := (Derivation.isSpan_of_obeys hD.2.1).1
        have hmeet := hD.2.2.1
        omega
  · intro τ hτ hτspan hlayer
    have hτ' := hseed.grows.hasTarget.1 hτ
    refine (hseed.frame τ hτ' fun hword => ?_).trans (h.blank τ hτ' fun hdone => ?_)
    · rw [hword.2.2] at hlayer
      exact Nat.lt_irrefl 0 hlayer
    · obtain ⟨hstart, hstop⟩ := hτspan
      unfold Before at hdone
      omega

/-- The binary edges and the unary passes over an open span. -/
theorem dominates_fillOpen (hg : t.grammar.WellFormed) {width first : Nat} (hwidth : 2 ≤ width)
    (hspan : IsSpan t.sentence.size first (first + width)) {s : State}
    (h : Filled t chain discovery (Before width first) s)
    (hopen : t.limits.isOpen first (first + width) = true) :
    Extends t chain (OfSpan first (first + width)) s.progress.chart
        (s.fillOpen t discovery first (first + width)).progress.chart ∧
      ∀ D : Derivation, D.Obeys t chain → OfSpan first (first + width) (D.target t.grammar) →
        (s.fillOpen t discovery first (first + width)).progress.chart.Dominates t D := by
  have hfill := extends_fill discovery s.extents hg h.sound hspan.2 hopen
  have hpasses := extends_unaryPasses hfill.sound hg hspan
  have hextends := (hfill.mono (P := OfSpan first (first + width)) fun τ hτ => hτ.1).trans hpasses
  refine ⟨hextends, fun D hD hDspan => ?_⟩
  refine dominates_unaryPasses hfill.sound hg hspan ?_ ?_ hD hDspan
  · -- Over two words or more it is binary, and its children are done.
    intro D hD hDspan hdepth
    cases D with
    | leaf id j =>
        obtain ⟨hstart, hstop⟩ := hDspan
        change j = first at hstart
        change j + 1 = first + width at hstop
        omega
    | unary id D => cases hdepth
    | binary id l r =>
        obtain ⟨hstart, hstop⟩ := hDspan
        change l.start = first at hstart
        change r.stop = first + width at hstop
        have hl := (Derivation.isSpan_of_obeys hD.1).1
        have hr := (Derivation.isSpan_of_obeys hD.2.1).1
        have hmeet := hD.2.2.1
        have hdonel : Before width first l.start l.stop := by
          unfold Before
          omega
        have hdoner : Before width first r.start r.stop := by
          unfold Before
          omega
        have hdom := dominates_fill discovery s.extents hg h.sound hD
          (h.dominates l hD.1 hdonel) (h.dominates r hD.2.1 hdoner) ?_
        · rw [hstart, hstop] at hdom
          exact hdom
        · intro hext D x hD hslot hx hreach
          refine h.knows hext D x hD ?_ hx hreach
          rcases hslot with hslot | hslot
          · injection hslot with hstart' hstop' hsymbol
            rw [hstart', hstop']
            exact hdonel
          · injection hslot with hstart' hstop' hsymbol
            rw [hstart', hstop']
            exact hdoner
  · intro τ hτ hτspan hlayer
    have hτ' := hfill.grows.hasTarget.1 hτ
    refine (hfill.frame τ hτ' fun hbase => ?_).trans (h.blank τ hτ' fun hdone => ?_)
    · rw [hbase.2] at hlayer
      exact Nat.lt_irrefl 0 hlayer
    · obtain ⟨hstart, hstop⟩ := hτspan
      unfold Before at hdone
      omega

theorem filled_fillSpan (hg : t.grammar.WellFormed) {width first : Nat} (hwidth : 2 ≤ width)
    (hspan : IsSpan t.sentence.size first (first + width)) {s : State}
    (h : Filled t chain discovery (Before width first) s) :
    Filled t chain discovery (Before width (first + 1))
      (s.fillSpan t discovery first (first + width)) := by
  unfold State.fillSpan
  dsimp only
  split
  · next hopen =>
    obtain ⟨hextends, hdom⟩ := dominates_fillOpen hg hwidth hspan h hopen
    refine h.finishCell hg hspan hextends hdom ?_ ?_
    · obtain ⟨hstride, hns, hfs, hnst, hfst⟩ := h.sized
      unfold State.fillOpen
      dsimp only
      split <;> exact ⟨hstride, hns, hfs, hnst, hfst⟩
    · rintro x ⟨hns, hfs, hfst, hnst⟩
      unfold State.fillOpen
      dsimp only
      split <;> exact ⟨hns, hfs, hfst, hnst⟩
  · next hclosed =>
    refine h.finishCell hg hspan (Extends.refl h.sound) ?_ h.sized fun _ hx => hx
    rintro D hD ⟨hstart, hstop⟩
    change D.start = first at hstart
    change D.stop = first + width at hstop
    have hopen := Derivation.isOpen_of_obeys hD (by omega)
    rw [hstart, hstop] at hopen
    exact absurd hopen hclosed

/-! ## Filling row after row -/

/-- Fill the first cells of a width. -/
def fillRow (t : Task) (discovery : Discovery) (s : State) (width cells : Nat) : State :=
  (List.range cells).foldl (fun s start => s.fillSpan t discovery start (start + width)) s

theorem filled_words (hg : t.grammar.WellFormed) {s : State}
    (h : Filled t chain discovery (Before 1 0) s) :
    ∀ n ≤ t.sentence.size, Filled t chain discovery (Before 1 n)
      ((List.range n).foldl (fun s i => s.fillWord t discovery i) s) :=
  Loop.foldl_range (I := fun n s => Filled t chain discovery (Before 1 n) s)
    (fun _ _ hi hs => filled_fillWord hg hi hs) h

theorem filled_row (hg : t.grammar.WellFormed) {width : Nat} (hwidth : 2 ≤ width) {s : State}
    (h : Filled t chain discovery (Before width 0) s) {cells : Nat}
    (hcells : cells + width ≤ t.sentence.size + 1) :
    Filled t chain discovery (Before width cells) (fillRow t discovery s width cells) :=
  Loop.foldl_range (I := fun n s => Filled t chain discovery (Before width n) s)
    (fun _ _ hi hs => filled_fillSpan hg hwidth ⟨by omega, by omega⟩ hs) h cells (Nat.le_refl _)

theorem foldl_widerSpans (t : Task) (discovery : Discovery) (n : Nat) (s : State) :
    (widerSpans n).foldl (fun s (start, stop) => s.fillSpan t discovery start stop) s =
      (List.range' 2 (n - 1)).foldl
        (fun s width => fillRow t discovery s width (n - width + 1)) s := by
  rw [widerSpans, List.foldl_flatMap]
  simp only [List.foldl_map]
  rfl

theorem filled_rows (hg : t.grammar.WellFormed) {s : State}
    (h : Filled t chain discovery (Before 2 0) s) :
    ∀ rows, rows + 1 ≤ t.sentence.size → Filled t chain discovery (Before (rows + 2) 0)
      ((List.range' 2 rows).foldl
        (fun s width => fillRow t discovery s width (t.sentence.size - width + 1)) s)
  | 0, _ => h
  | rows + 1, hrows => by
      rw [List.range'_1_concat, List.foldl_append]
      have hbefore := filled_rows hg h rows (by omega)
      have hwidth : 2 ≤ 2 + rows := by omega
      have hcells : t.sentence.size - (2 + rows) + 1 + (2 + rows) ≤ t.sentence.size + 1 := by omega
      have hrow := filled_row hg hwidth (Nat.add_comm rows 2 ▸ hbefore) hcells
      refine hrow.congr fun start stop hspan => ?_
      obtain ⟨hlt, hle⟩ := hspan
      unfold Before
      omega

theorem exact_run (hg : t.grammar.WellFormed) :
    ((State.start t chain).run t discovery).progress.chart.Exact t chain := by
  have hwords := filled_words hg (filled_start t chain discovery) _ (Nat.le_refl _)
  have hrun : ∃ width, t.sentence.size < width ∧
      Filled t chain discovery (Before width 0) ((State.start t chain).run t discovery) := by
    unfold State.run
    dsimp only
    rw [foldl_widerSpans]
    rcases Nat.eq_zero_or_pos t.sentence.size with hzero | hpos
    · refine ⟨1, by omega, ?_⟩
      rw [hzero]
      exact filled_start t chain discovery
    · refine ⟨t.sentence.size - 1 + 2, by omega, filled_rows hg ?_ _ (by omega)⟩
      refine hwords.congr fun start stop hspan => ?_
      obtain ⟨hlt, hle⟩ := hspan
      unfold Before
      omega
  obtain ⟨width, hwidth, hfilled⟩ := hrun
  refine ⟨hfilled.sound, fun D hD => hfilled.dominates D hD ?_⟩
  obtain ⟨-, hle⟩ := Derivation.isSpan_of_obeys hD
  exact Or.inl (by omega)

end BottomUp
end BestParse
