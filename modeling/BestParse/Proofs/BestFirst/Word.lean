import BestParse.Proofs.BestFirst.Root
import BestParse.Proofs.BestFirst.Trees

/-!
# Sentences of one word

Over one word the root is a slot that the seeding writes to.  If the start symbol has a lexical
production for the word, the root is complete before any edge is taken, and a search for the
root ends there: it reports the best lexical production and never looks at the unary
productions above other symbols, which may lead to a better score (`word_stops_early`).

Otherwise the seeding leaves the root open, and the search goes on as over longer sentences.
So what it reports is the best score without unary productions if there is one, and the score
of bottom-up search if there is none (`word_agrees`).
-/

namespace BestParse
namespace BestFirst

open Chart

variable {t : Task} {chain : Nat} {b : BestFirst}

/-! ## The layer without unary productions -/

/-- Over one word a derivation without a unary production is a leaf. -/
theorem eq_leaf_of_word (hword : t.sentence.size = 1) {D : Derivation} (hD : D.Obeys t chain)
    (hdepth : D.depth = 0) : ∃ id i, D = .leaf id i := by
  cases D with
  | leaf id i => exact ⟨id, i, rfl⟩
  | unary id D => cases hdepth
  | binary id L R =>
      obtain ⟨hL, hR, hmeet, -⟩ := hD
      obtain ⟨hleft, -⟩ := Derivation.isSpan_of_obeys hL
      obtain ⟨hright, hstop⟩ := Derivation.isSpan_of_obeys hR
      omega

/-- The layer of the root that no unary production leads to. -/
def bottom (t : Task) : Target := ⟨t.root, 0⟩

section

variable (hg : t.grammar.WellFormed) (hrates : RatesInside t) (hword : t.sentence.size = 1)

include hg hrates hword

/-- After the seeding of one word, the bottom layer of the root is as bottom-up search leaves
it. -/
theorem agrees_bottom_seeded (b : BestFirst) {c : Chart} (hc : c.Exact t b.maxChain) :
    (((b.start t).seed t b.untilExhausted).chart.scoreAt (bottom t)).Agrees
      (c.scoreAt (bottom t)) := by
  obtain ⟨slots, hsown⟩ := sown_words (honest_discipline hg (Or.inr hrates)) hg
    (honest_start b t (Or.inr hrates))
  have hsound : ((b.start t).seed t b.untilExhausted).chart.Sound t b.maxChain := hsown.sound
  have hroot := hsound.isFor.hasSlot_root hg (by omega)
  have hbottom : ((b.start t).seed t b.untilExhausted).chart.HasTarget (bottom t) :=
    ⟨hroot, Nat.zero_le _⟩
  have hbottom' := (hsound.isFor.hasTarget_iff hc.isFor).1 hbottom
  refine ⟨hsound.coherent.number _ hbottom, hc.coherent.number _ hbottom', ?_⟩
  apply Int.le_antisymm
  · exact hsound.scoreAt_le hbottom fun D hD _ => hc.dominates D hD
  · refine hc.toSound.scoreAt_le hbottom' fun D hD htarget => ?_
    obtain ⟨id, i, rfl⟩ := eq_leaf_of_word hword hD (congrArg Target.layer htarget)
    exact hsown.covered.dominates_leaf hD hD.1

/-- The seeding reaches the root only through its bottom layer. -/
theorem bestAt_root_seeded (b : BestFirst)
    (hreach : (((b.start t).seed t b.untilExhausted).chart.bestAt t.root).isReachable = true) :
    ((b.start t).seed t b.untilExhausted).chart.bestAt t.root =
      ((b.start t).seed t b.untilExhausted).chart.scoreAt (bottom t) := by
  have hfaithful := faithful_seed hg hrates b
  have hlexical : OnlyLexical t.grammar ((b.start t).seed t b.untilExhausted).chart :=
    onlyLexical_words hg b
  have hsound := hfaithful.good.sound
  have hlinked := (Course.linked hfaithful.course hg).1
  have hroot := hsound.isFor.hasSlot_root hg (by omega)
  generalize ((b.start t).seed t b.untilExhausted).chart = c at *
  have htop := hsound.coherent.hasTarget_topOf hroot
  obtain ⟨e, he⟩ := Option.isSome_iff_exists.1 (hlinked.slot_holds _ hroot hreach)
  have htarget := hlinked.target_eq _ e htop he
  obtain ⟨id, i, rfl⟩ := hlexical _ e htop he
  have hlayer : (c.topOf t.root).layer = 0 := (congrArg Target.layer htarget).symm
  rw [hsound.coherent.best_eq _ hroot]
  exact congrArg (fun layer => c.scoreAt ⟨t.root, layer⟩) hlayer

/-- The seeding of one word completes the root when the bottom layer of the root is
reachable. -/
theorem isComplete_seeded (b : BestFirst) {c : Chart} (hc : c.Exact t b.maxChain) :
    ((b.start t).seed t b.untilExhausted).chart.isComplete t.grammar =
      (c.scoreAt (bottom t)).isReachable := by
  have hsound := (honest_seed hg (Or.inr hrates) (Or.inr hrates) (b := b)).good.sound
  have hsize : t.sentence.size ≠ 0 := by omega
  have hroot := hsound.isFor.hasSlot_root hg hsize
  rw [← (agrees_bottom_seeded hg hrates hword b hc).isReachable_eq, Bool.eq_iff_iff,
    hsound.isComplete_iff hg hsize]
  constructor
  · intro hreach
    rw [← bestAt_root_seeded hg hrates hword b hreach]
    exact hreach
  · intro hreach
    exact Score.isReachable_mono hreach (hsound.coherent.best_number hroot)
      (hsound.coherent.score_le (bottom t) ⟨hroot, Nat.zero_le _⟩)

end

/-! ## Searches over one word -/

/-- A search that the seeding completes reports the seeded chart. -/
theorem chart_of_seeded (hg : t.grammar.WellFormed) (b : BestFirst)
    (huntil : b.untilExhausted = false)
    (hcomplete : ((b.start t).seed t b.untilExhausted).chart.isComplete t.grammar = true) :
    (b.parse t).1.chart = ((b.start t).seed t b.untilExhausted).chart ∧
      (b.parse t).1.outcome = (b.parse t).1.chart.outcome t.grammar := by
  obtain ⟨s, rfl, hchart, houtcome, -⟩ := parse_ends hg b
    (I := fun s => s = (b.start t).seed t b.untilExhausted) rfl fun s s' _ heq hstep => by
      obtain ⟨hsearching, -⟩ := step_next hstep
      rw [heq, State.phase_seed, hcomplete, huntil] at hsearching
      cases hsearching
  exact ⟨hchart, hchart ▸ houtcome⟩

/-- When probabilities are at most one, best-first search by scores over one word reports the
best score without unary productions if the word has one for the root, and otherwise the root
of bottom-up search.  This holds for every frontier, commit rule and queue. -/
theorem word_agrees {d : Draft} {t : Task} (hbuild : d.build = .ok t.grammar)
    (hneg : ∀ id, id < t.grammar.numProductions →
      (t.grammar.production id).logprob.isAtMost .certain = true)
    (hword : t.sentence.size = 1) (hmerit : t.merit = .inside) (b : BestFirst)
    (huntil : b.untilExhausted = false) (hpops : b.maxPops = 0) (b' : BottomUp)
    (hchain : b.maxChain = b'.maxChain) :
    (b.parse t).1.outcome = (b'.parse t).1.outcome ∧
    ((b.parse t).1.chart.rootInside t.grammar).Agrees
      (if ((b'.parse t).1.chart.layerInside 0 1 t.grammar.start 0).isReachable then
        (b'.parse t).1.chart.layerInside 0 1 t.grammar.start 0
      else (b'.parse t).1.chart.rootInside t.grammar) ∧
    ((b.parse t).1.faulty = true → (b'.parse t).1.faulty = true) := by
  have hg := wellFormed_of_build hbuild
  have hrates : RatesInside t := by
    intro e c
    rw [hmerit]
    rfl
  have hsize : t.sentence.size ≠ 0 := by omega
  have hfaults : (b.parse t).1.faulty = true → (b'.parse t).1.faulty = true := by
    intro hfaulty
    rcases faulty_parse hg b' hfaulty with hfault | ⟨e, he⟩
    · exact hfault
    · rw [hmerit] at he
      cases he
  have hexact := b'.exact_parse hg
  have houtcome' : (b'.parse t).1.outcome = (b'.parse t).1.chart.outcome t.grammar := rfl
  rw [← hchain] at hexact
  rw [houtcome', layerInside_eq]
  generalize (b'.parse t).1.chart = c' at *
  have hbottom : (⟨⟨0, 1, t.grammar.start⟩, 0⟩ : Target) = bottom t := by
    rw [bottom, Task.root, hword]
  have hcomplete := isComplete_seeded hg hrates hword b hexact
  have hlayer := agrees_bottom_seeded hg hrates hword b hexact
  rw [hbottom, ← hcomplete]
  cases hcase : ((b.start t).seed t b.untilExhausted).chart.isComplete t.grammar with
  | true =>
      obtain ⟨hchart, houtcome⟩ := chart_of_seeded hg b huntil hcase
      have hsound := (honest_seed hg (Or.inr hrates) (Or.inr hrates) (b := b)).good.sound
      have hreach := (hsound.isComplete_iff hg hsize).1 hcase
      rw [if_pos rfl, houtcome, hchart, hsound.isFor.rootInside_eq hsize,
        bestAt_root_seeded hg hrates hword b hreach]
      refine ⟨?_, hlayer, hfaults⟩
      rw [outcome_eq_parsed_iff.2 hcase, eq_comm, outcome_eq_parsed_iff,
        hexact.isComplete_iff hg hsize]
      rw [hcase] at hcomplete
      have hroot := hexact.isFor.hasSlot_root hg hsize
      exact Score.isReachable_mono hcomplete.symm (hexact.coherent.best_number hroot)
        (hexact.coherent.score_le (bottom t) ⟨hroot, Nat.zero_le _⟩)
  | false =>
      obtain ⟨hsound, hbounds, houtcome⟩ := parse_bounds_unseeded_root hg
        (fun id hid => (Score.isAtMost_iff.1 (hneg id hid)).2.2) hrates hsize hcase huntil hpops
      have hroot := hsound.agrees_rootInside hexact.toSound hg hbounds (hexact.bounds hg _)
      rw [if_neg Bool.false_ne_true]
      exact ⟨houtcome.trans (hsound.outcome_eq hexact.toSound hg hroot), hroot, hfaults⟩

/-! ## A word that is its own sentence -/

/-- A draft whose start symbol has a poor production for a word and a good one above another
symbol. -/
def shortcutDraft : Draft where
  start := some "S"
  rules := #[.lexical "S" "a" (.ofRatio true 5 1), .unary "S" "A" (.ofRatio true 1 1),
    .lexical "A" "a" .certain]

/-- The grammar of that draft. -/
def shortcutGrammar : Grammar := shortcutDraft.build.toOption.get (by decide +kernel)

/-- The task of parsing that word. -/
def shortcutTask : Task where
  grammar := shortcutGrammar
  sentence := .ofWords shortcutGrammar #["a"]

/-- The search settles for the lexical production, also with ghosts and a memo queue. -/
theorem word_agrees_shortcut :
    ((BestFirst.new .ghost .heuristic .memo).parse shortcutTask).1.outcome = .parsed ∧
    (((BestFirst.new .ghost .heuristic .memo).parse shortcutTask).1.chart.rootInside
      shortcutGrammar).Agrees (.ofRatio true 5 1) := by
  have hparsed : ((BottomUp.mk .productions 1 {}).parse shortcutTask).1.outcome = .parsed := by
    decide +kernel
  have hvalue : ((BottomUp.mk .productions 1 {}).parse shortcutTask).1.chart.layerInside 0 1
      shortcutTask.grammar.start 0 = .ofRatio true 5 1 := by decide +kernel
  obtain ⟨houtcome, hroot, -⟩ := word_agrees (t := shortcutTask) (Draft.build_eq_ok _)
    (by decide +kernel) (by decide +kernel) rfl (BestFirst.new .ghost .heuristic .memo) rfl rfl
    (.mk .productions 1 {}) rfl
  rw [hvalue, if_pos (by decide +kernel)] at hroot
  exact ⟨houtcome.trans hparsed, hroot⟩

/-- No probability is above one, and the search reports five below zero where bottom-up search
reports one below zero. -/
theorem word_stops_early :
    (∀ id, id < shortcutGrammar.numProductions →
      (shortcutGrammar.production id).logprob.isAtMost .certain = true) ∧
    shortcutTask.sentence.size = 1 ∧
    ((BestFirst.new .scan .inside .stable).parse shortcutTask).1.chart.rootInside
      shortcutGrammar = .ofRatio true 5 1 ∧
    ((BottomUp.mk .productions 1 {}).parse shortcutTask).1.chart.rootInside shortcutGrammar =
      .ofRatio true 1 1 := by
  decide +kernel

end BestFirst
end BestParse
