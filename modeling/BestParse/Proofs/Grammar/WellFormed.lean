import Mathlib.Data.List.Nodup
import BestParse.Grammar.Draft
import BestParse.Proofs.Grammar.Tables
import BestParse.Proofs.Score.Order

/-!
# Well-formed grammars

A grammar is *well formed* when its productions only use numbered symbols and
finite log-probabilities, no two lexical productions have the same parent and
word, and its tables are those of its productions.  Every grammar built from a
draft is well formed (`wellFormed_of_build`), and the searches use nothing else
about it.

The numbering of a draft keeps `Numbering.Sound`, one rule at a time.
-/

namespace BestParse

/-- The children of an expansion are numbered symbols. -/
def Expansion.Scoped (nonterminals words : Nat) : Expansion → Prop
  | .binary l r => l < nonterminals ∧ r < nonterminals
  | .unary c => c < nonterminals
  | .lexical w => w < words

theorem Expansion.Scoped.mono {n n' w w' : Nat} (hn : n ≤ n') (hw : w ≤ w') {e : Expansion}
    (h : e.Scoped n w) : e.Scoped n' w' := by
  cases e with
  | binary l r => exact ⟨Nat.lt_of_lt_of_le h.1 hn, Nat.lt_of_lt_of_le h.2 hn⟩
  | unary c => exact Nat.lt_of_lt_of_le h hn
  | lexical v => exact Nat.lt_of_lt_of_le h hw

/-- What the searches rely on. -/
structure Grammar.WellFormed (g : Grammar) : Prop where
  start_lt : g.start < g.numNonterminals
  parent_lt : ∀ id, id < g.numProductions → (g.production id).parent < g.numNonterminals
  children_scoped : ∀ id, id < g.numProductions →
    (g.production id).expansion.Scoped g.numNonterminals g.words.size
  finite : ∀ id, id < g.numProductions → (g.production id).logprob.isFinite = true
  lexical_unique : ∀ id id' w, id < g.numProductions → id' < g.numProductions →
    (g.production id).expansion = .lexical w → (g.production id').expansion = .lexical w →
    (g.production id).parent = (g.production id').parent → id = id'
  index_eq : g.index = Index.ofProductions g.numNonterminals g.words.size g.productions

namespace Grammar.WellFormed

variable {g : Grammar}

/-! ## Look-ups -/

/-- Only questions in range have answers among scoped expansions. -/
theorem inRange_of_answers {n w : Nat} {q : Query} {e : Expansion} (hscoped : e.Scoped n w)
    (hq : q.answers e = true) : (Index.empty n w).InRange q := by
  cases e with
  | binary l r =>
      cases q with
      | binary => trivial
      | left c => simp_all [Query.answers, Index.InRange, Index.empty, Expansion.Scoped]
      | right c => simp_all [Query.answers, Index.InRange, Index.empty, Expansion.Scoped]
      | pair c d => trivial
      | child c => cases hq
      | word v => cases hq
  | unary b =>
      cases q with
      | child c => simp_all [Query.answers, Index.InRange, Index.empty, Expansion.Scoped]
      | _ => cases hq
  | lexical v =>
      cases q with
      | word c => simp_all [Query.answers, Index.InRange, Index.empty, Expansion.Scoped]
      | _ => cases hq

/-- Every question is answered by the list of the productions that answer it. -/
theorem find_eq (h : g.WellFormed) (q : Query) :
    g.index.find q =
      (List.range g.numProductions).filter fun id => q.answers (g.production id).expansion := by
  rw [h.index_eq]
  by_cases hq : (Index.empty g.numNonterminals g.words.size).InRange q
  · exact Index.find_ofProductions g.productions hq
  · rw [Index.find_ofProductions_eq_nil g.productions hq, eq_comm, List.filter_eq_nil_iff]
    intro id hid hanswer
    exact hq (inRange_of_answers (h.children_scoped id (List.mem_range.1 hid)) hanswer)

theorem mem_find (h : g.WellFormed) {q : Query} {id : ProductionId} :
    id ∈ g.index.find q ↔ id < g.numProductions ∧ q.answers (g.production id).expansion = true := by
  rw [h.find_eq, List.mem_filter, List.mem_range]

theorem nodup_find (h : g.WellFormed) (q : Query) : (g.index.find q).Nodup := by
  rw [h.find_eq]
  exact List.nodup_range.filter _

theorem length_find_le (h : g.WellFormed) (q : Query) :
    (g.index.find q).length ≤ g.numProductions := by
  rw [h.find_eq]
  exact Nat.le_trans (List.length_filter_le _ _) (Nat.le_of_eq List.length_range)

theorem mem_allBinary (h : g.WellFormed) {id : ProductionId} :
    id ∈ g.allBinary ↔
      id < g.numProductions ∧ ∃ l r, (g.production id).expansion = .binary l r := by
  refine (h.mem_find (q := .binary)).trans (and_congr_right fun _ => ?_)
  cases (g.production id).expansion <;> simp [Query.answers]

theorem mem_binaryWithLeft (h : g.WellFormed) {id : ProductionId} {c : NonTerminal} :
    id ∈ g.binaryWithLeft c ↔
      id < g.numProductions ∧ ∃ r, (g.production id).expansion = .binary c r := by
  refine (h.mem_find (q := .left c)).trans (and_congr_right fun _ => ?_)
  cases (g.production id).expansion <;> simp [Query.answers]

theorem mem_binaryWithRight (h : g.WellFormed) {id : ProductionId} {c : NonTerminal} :
    id ∈ g.binaryWithRight c ↔
      id < g.numProductions ∧ ∃ l, (g.production id).expansion = .binary l c := by
  refine (h.mem_find (q := .right c)).trans (and_congr_right fun _ => ?_)
  cases (g.production id).expansion <;> simp [Query.answers]

theorem isLeftChild_iff (h : g.WellFormed) {c : NonTerminal} :
    g.isLeftChild c = true ↔
      ∃ id r, id < g.numProductions ∧ (g.production id).expansion = .binary c r := by
  rw [isLeftChild, Bool.not_eq_true', List.isEmpty_eq_false_iff_exists_mem]
  simp only [h.mem_binaryWithLeft, exists_and_left]

theorem isRightChild_iff (h : g.WellFormed) {c : NonTerminal} :
    g.isRightChild c = true ↔
      ∃ id l, id < g.numProductions ∧ (g.production id).expansion = .binary l c := by
  rw [isRightChild, Bool.not_eq_true', List.isEmpty_eq_false_iff_exists_mem]
  simp only [h.mem_binaryWithRight, exists_and_left]

theorem mem_binaryWithPair (h : g.WellFormed) {id : ProductionId} {l r : NonTerminal} :
    id ∈ g.binaryWithPair l r ↔
      id < g.numProductions ∧ (g.production id).expansion = .binary l r := by
  refine (h.mem_find (q := .pair l r)).trans (and_congr_right fun _ => ?_)
  cases (g.production id).expansion <;> simp [Query.answers]

theorem mem_unaryWithChild (h : g.WellFormed) {id : ProductionId} {c : NonTerminal} :
    id ∈ g.unaryWithChild c ↔
      id < g.numProductions ∧ (g.production id).expansion = .unary c := by
  refine (h.mem_find (q := .child c)).trans (and_congr_right fun _ => ?_)
  cases (g.production id).expansion <;> simp [Query.answers]

theorem mem_lexicalWith (h : g.WellFormed) {id : ProductionId} {word : Option WordId} :
    id ∈ g.lexicalWith word ↔
      id < g.numProductions ∧ word.map .lexical = some (g.production id).expansion := by
  cases word with
  | none => simp [lexicalWith]
  | some w =>
      refine (h.mem_find (q := .word w)).trans (and_congr_right fun _ => ?_)
      cases (g.production id).expansion <;> simp [Query.answers, eq_comm]

/-- The productions of a word have different parents. -/
theorem nodup_parents (h : g.WellFormed) (word : Option WordId) :
    ((g.lexicalWith word).map fun id => (g.production id).parent).Nodup := by
  cases word with
  | none => exact List.nodup_nil
  | some w =>
      have hentry : ∀ id ∈ g.lexicalWith (some w), id < g.numProductions ∧
          (g.production id).expansion = .lexical w := fun id hid => by
        obtain ⟨hlt, hexp⟩ := h.mem_lexicalWith.1 hid
        exact ⟨hlt, (Option.some.inj hexp).symm⟩
      refine List.Nodup.map_on (fun id hid id' hid' hparent => ?_) (h.nodup_find (.word w))
      obtain ⟨hlt, hexp⟩ := hentry id hid
      obtain ⟨hlt', hexp'⟩ := hentry id' hid'
      exact h.lexical_unique id id' w hlt hlt' hexp hexp' hparent

end Grammar.WellFormed

/-! ## Numbering a draft -/

namespace SymbolTable

theorem intern_fst_lt (t : SymbolTable) (name : String) :
    (t.intern name).1 < (t.intern name).2.size := by
  have hfind := find?_eq_some_iff.1 (find?_intern t name)
  exact (Array.getElem?_eq_some_iff.1 hfind).1

theorem size_le_intern (t : SymbolTable) (name : String) : t.size ≤ (t.intern name).2.size := by
  unfold intern
  split
  · exact Nat.le_refl _
  · simp [append, size]

end SymbolTable

namespace Numbering

/-- The productions numbered so far are finite, use only numbered symbols, and have
different signatures, all of them seen. -/
structure Sound (s : Numbering) : Prop where
  nonempty : 0 < s.nonterminals.size
  parent_lt : ∀ p ∈ s.productions, p.parent < s.nonterminals.size
  children_scoped : ∀ p ∈ s.productions, p.expansion.Scoped s.nonterminals.size s.words.size
  finite : ∀ p ∈ s.productions, p.logprob.isFinite = true
  seen : ∀ p ∈ s.productions, s.seen.contains p.signature = true
  distinct : s.productions.toList.Pairwise fun p p' => p.signature ≠ p'.signature

theorem sound_init (start : String) : (init start).Sound where
  nonempty := Nat.lt_of_le_of_lt (Nat.zero_le _) (SymbolTable.intern_fst_lt .empty start)
  parent_lt := by simp [init]
  children_scoped := by simp [init]
  finite := by simp [init]
  seen := by simp [init]
  distinct := by simp [init]

/-- The symbols of a rule are numbered, and no number is lost. -/
theorem symbols_scoped (nonterminals words : SymbolTable) (rule : Rule) :
    (symbols nonterminals words rule).1.parent < (symbols nonterminals words rule).2.1.size ∧
    (symbols nonterminals words rule).1.expansion.Scoped
      (symbols nonterminals words rule).2.1.size (symbols nonterminals words rule).2.2.size ∧
    nonterminals.size ≤ (symbols nonterminals words rule).2.1.size ∧
    words.size ≤ (symbols nonterminals words rule).2.2.size := by
  cases rule with
  | binary p l r logprob =>
      have hp := nonterminals.intern_fst_lt p
      have hp' := nonterminals.size_le_intern p
      have hl := (nonterminals.intern p).2.intern_fst_lt l
      have hl' := (nonterminals.intern p).2.size_le_intern l
      have hr := ((nonterminals.intern p).2.intern l).2.intern_fst_lt r
      have hr' := ((nonterminals.intern p).2.intern l).2.size_le_intern r
      exact ⟨Nat.lt_of_lt_of_le hp (Nat.le_trans hl' hr'), ⟨Nat.lt_of_lt_of_le hl hr', hr⟩,
        Nat.le_trans hp' (Nat.le_trans hl' hr'), Nat.le_refl _⟩
  | unary p c logprob =>
      have hp := nonterminals.intern_fst_lt p
      have hp' := nonterminals.size_le_intern p
      have hc := (nonterminals.intern p).2.intern_fst_lt c
      have hc' := (nonterminals.intern p).2.size_le_intern c
      exact ⟨Nat.lt_of_lt_of_le hp hc', hc, Nat.le_trans hp' hc', Nat.le_refl _⟩
  | lexical p w logprob =>
      have hp := nonterminals.intern_fst_lt p
      have hp' := nonterminals.size_le_intern p
      have hw := words.intern_fst_lt w
      have hw' := words.size_le_intern w
      exact ⟨hp, hw, hp', hw'⟩

/-- A rule is taken up unless it is not finite or its signature was seen. -/
theorem add_eq_ok_iff {s s' : Numbering} {rule : Rule} :
    s.add rule = .ok s' ↔
      (symbols s.nonterminals s.words rule).1.logprob.isFinite = true ∧
      s.seen.contains (symbols s.nonterminals s.words rule).1.signature = false ∧
      s' = ⟨(symbols s.nonterminals s.words rule).2.1, (symbols s.nonterminals s.words rule).2.2,
        s.productions.push (symbols s.nonterminals s.words rule).1,
        s.seen.insert (symbols s.nonterminals s.words rule).1.signature⟩ := by
  unfold add
  dsimp only
  cases (symbols s.nonterminals s.words rule).1.logprob.isFinite with
  | false => simp
  | true =>
      cases s.seen.contains (symbols s.nonterminals s.words rule).1.signature with
      | true => simp
      | false => simp [eq_comm]

theorem sound_add {s s' : Numbering} {rule : Rule} (h : s.Sound) (hadd : s.add rule = .ok s') :
    s'.Sound := by
  obtain ⟨hparent, hchildren, hnts, hwords⟩ := symbols_scoped s.nonterminals s.words rule
  obtain ⟨hfinite, hfresh, rfl⟩ := add_eq_ok_iff.1 hadd
  constructor
  · exact Nat.lt_of_lt_of_le h.nonempty hnts
  · intro p hp
    rcases Array.mem_push.1 hp with hp | rfl
    · exact Nat.lt_of_lt_of_le (h.parent_lt p hp) hnts
    · exact hparent
  · intro p hp
    rcases Array.mem_push.1 hp with hp | rfl
    · exact (h.children_scoped p hp).mono hnts hwords
    · exact hchildren
  · intro p hp
    rcases Array.mem_push.1 hp with hp | rfl
    · exact h.finite p hp
    · exact hfinite
  · intro p hp
    rw [Std.TreeSet.contains_insert, Bool.or_eq_true]
    rcases Array.mem_push.1 hp with hp | rfl
    · exact Or.inr (h.seen p hp)
    · exact Or.inl (by simp)
  · rw [Array.toList_push, List.pairwise_append]
    refine ⟨h.distinct, List.pairwise_singleton _ _, ?_⟩
    intro p hp p' hp' heq
    rw [List.mem_singleton] at hp'
    have hseen := h.seen p (Array.mem_toList_iff.1 hp)
    rw [heq, hp', hfresh] at hseen
    cases hseen

theorem sound_foldlM : ∀ (rules : List Rule) {s s' : Numbering}, s.Sound →
    rules.foldlM add s = .ok s' → s'.Sound
  | [], s, s', h, hfold => by
      cases hfold
      exact h
  | rule :: rules, s, s', h, hfold => by
      rw [List.foldlM_cons] at hfold
      cases hadd : s.add rule with
      | error e => rw [hadd] at hfold; cases hfold
      | ok next =>
          rw [hadd] at hfold
          exact sound_foldlM rules (sound_add h hadd) hfold

end Numbering

/-! ## Building -/

theorem size_le_foldl_intern (names : List String) :
    ∀ t : SymbolTable, t.size ≤ (names.foldl (fun t name => (t.intern name).2) t).size := by
  induction names with
  | nil => intro t; exact Nat.le_refl _
  | cons name names ih =>
      intro t
      exact Nat.le_trans (t.size_le_intern name) (ih _)

/-- No two productions have the same signature. -/
theorem Numbering.Sound.eq_of_signature_eq {s : Numbering} (h : s.Sound) {id id' : ProductionId}
    (hid : id < s.productions.size) (hid' : id' < s.productions.size)
    (hsig : (s.productions.getD id default).signature =
      (s.productions.getD id' default).signature) : id = id' := by
  simp only [Array.getD_eq_getD_getElem?, Array.getElem?_eq_getElem hid,
    Array.getElem?_eq_getElem hid', Option.getD_some] at hsig
  have hpairwise := List.pairwise_iff_getElem.1 h.distinct
  rcases Nat.lt_trichotomy id id' with hlt | heq | hlt
  · exact absurd hsig (hpairwise id id' hid hid' hlt)
  · exact heq
  · exact absurd hsig.symm (hpairwise id' id hid' hid hlt)

/-- A sound numbering with enough names makes a well-formed grammar. -/
theorem Numbering.Sound.wellFormed {s : Numbering} (h : s.Sound) (nonterminals : SymbolTable)
    (hsize : s.nonterminals.size ≤ nonterminals.size) (factored : Array Bool) :
    Grammar.WellFormed {
      nonterminals
      words := s.words
      productions := s.productions
      index := Index.ofProductions nonterminals.size s.words.size s.productions
      factored } := by
  have hmem : ∀ id, id < s.productions.size → s.productions.getD id default ∈ s.productions := by
    intro id hid
    simp [Array.getD_eq_getD_getElem?, hid]
  constructor
  · exact Nat.lt_of_lt_of_le h.nonempty hsize
  · intro id hid
    exact Nat.lt_of_lt_of_le (h.parent_lt _ (hmem id hid)) hsize
  · intro id hid
    exact (h.children_scoped _ (hmem id hid)).mono hsize (Nat.le_refl _)
  · intro id hid
    exact h.finite _ (hmem id hid)
  · -- The same parent and word make the same signature.
    intro id id' w hid hid' hw hw' hparent
    refine h.eq_of_signature_eq hid hid' ?_
    change (s.productions.getD id default).expansion = _ at hw
    change (s.productions.getD id' default).expansion = _ at hw'
    change (s.productions.getD id default).parent = (s.productions.getD id' default).parent
      at hparent
    simp only [Production.signature, hw, hw', hparent]
  · rfl

/-- The grammar of a numbering, in which the marked nonterminals have numbers too. -/
def Numbering.finish (s : Numbering) (marked : Array String) : Grammar :=
  let nonterminals := marked.foldl (fun table name => (table.intern name).2) s.nonterminals
  { nonterminals
    words := s.words
    productions := s.productions
    index := Index.ofProductions nonterminals.size s.words.size s.productions
    factored := nonterminals.names.map fun name => hasFactoredName name || marked.contains name }

/-- A rule that cannot be numbered decides the error. -/
theorem Draft.build_of_rejected {d : Draft} {start : String} {e : GrammarError}
    (hstart : d.start = some start)
    (hfold : d.rules.toList.foldlM Numbering.add (Numbering.init start) = .error e) :
    d.build = .error e := by
  unfold Draft.build
  rw [hstart]
  dsimp only
  rw [← Array.foldlM_toList, hfold]
  rfl

/-- When the rules are numbered, the number of nonterminals and the start symbol are checked. -/
theorem Draft.build_of_numbered {d : Draft} {start : String} {s : Numbering}
    (hstart : d.start = some start)
    (hfold : d.rules.toList.foldlM Numbering.add (Numbering.init start) = .ok s) :
    d.build =
      if noChild ≤ (s.finish d.factored).numNonterminals then
        .error (.tooManyNonterminals (s.finish d.factored).numNonterminals)
      else if !s.productions.any (fun p => p.parent = 0) then .error (.unusedStart start)
      else .ok (s.finish d.factored) := by
  unfold Draft.build
  rw [hstart]
  dsimp only
  rw [← Array.foldlM_toList, hfold]
  rfl

/-- A grammar is built when the rules can be numbered, the numbers are few enough and the start
symbol is a parent. -/
theorem Draft.build_eq_ok_iff {d : Draft} {g : Grammar} :
    d.build = .ok g ↔ ∃ (start : String) (s : Numbering), d.start = some start ∧
      d.rules.toList.foldlM Numbering.add (Numbering.init start) = .ok s ∧
      (s.finish d.factored).numNonterminals < noChild ∧ (∃ p ∈ s.productions, p.parent = 0) ∧
      s.finish d.factored = g := by
  have hany : ∀ s : Numbering, (s.productions.any fun p => decide (p.parent = 0)) = true ↔
      ∃ p ∈ s.productions, p.parent = 0 := by
    simp only [Array.any_eq_true', decide_eq_true_eq, implies_true]
  constructor
  · intro h
    cases hstart : d.start with
    | none => simp [Draft.build, hstart] at h
    | some start =>
        cases hfold : d.rules.toList.foldlM Numbering.add (Numbering.init start) with
        | error e => simp [build_of_rejected hstart hfold] at h
        | ok s =>
            rw [build_of_numbered hstart hfold] at h
            split at h
            · cases h
            · next hfew =>
              split at h
              · cases h
              · next hused =>
                refine ⟨start, s, rfl, hfold, Nat.lt_of_not_le hfew, (hany s).1 ?_, Except.ok.inj h⟩
                simpa using hused
  · rintro ⟨start, s, hstart, hfold, hfew, hused, rfl⟩
    rw [build_of_numbered hstart hfold, if_neg (Nat.not_le_of_lt hfew), (hany s).2 hused]
    rfl

/-- A grammar built from a draft has the productions of a sound numbering. -/
theorem exists_numbering_of_build {d : Draft} {g : Grammar} (h : d.build = .ok g) :
    ∃ s : Numbering, s.Sound ∧ s.nonterminals.size ≤ (s.finish d.factored).numNonterminals ∧
      g = s.finish d.factored := by
  obtain ⟨start, s, -, hfold, -, -, rfl⟩ := Draft.build_eq_ok_iff.1 h
  refine ⟨s, Numbering.sound_foldlM _ (Numbering.sound_init start) hfold, ?_, rfl⟩
  change _ ≤ (d.factored.foldl (fun t name => (t.intern name).2) s.nonterminals).size
  rw [← Array.foldl_toList]
  exact size_le_foldl_intern _ _

/-- Every grammar built from a draft is well formed. -/
theorem wellFormed_of_build {d : Draft} {g : Grammar} (h : d.build = .ok g) : g.WellFormed := by
  obtain ⟨s, hsound, hsize, rfl⟩ := exists_numbering_of_build h
  exact hsound.wellFormed _ hsize _

/-- A grammar built from a draft has no production twice. -/
theorem eq_of_production_eq {d : Draft} {g : Grammar} (h : d.build = .ok g)
    {id id' : ProductionId} (hid : id < g.numProductions) (hid' : id' < g.numProductions)
    (hparent : (g.production id).parent = (g.production id').parent)
    (hexp : (g.production id).expansion = (g.production id').expansion) : id = id' := by
  obtain ⟨s, hsound, -, rfl⟩ := exists_numbering_of_build h
  refine hsound.eq_of_signature_eq hid hid' ?_
  change (s.productions.getD id default).parent = (s.productions.getD id' default).parent
    at hparent
  change (s.productions.getD id default).expansion = (s.productions.getD id' default).expansion
    at hexp
  simp only [Production.signature, hparent, hexp]

/-- No production has a probability above one. -/
def Grammar.Discounting (g : Grammar) : Prop :=
  ∀ id, id < g.numProductions → (g.production id).logprob.rank ≤ 0

/-- A draft that builds a grammar builds the one that is taken from it. -/
theorem Draft.build_eq_ok {d : Draft} (h : d.build.toOption.isSome = true) :
    d.build = .ok (d.build.toOption.get h) := by
  revert h
  cases d.build with
  | error e => exact nofun
  | ok g => exact fun _ => rfl

/-- A draft whose unary productions go in a circle, with no probability above one. -/
def circularDraft : Draft where
  start := some "S"
  rules := #[.binary "S" "S" "S" (.ofWholeUnits (-3)), .unary "S" "A" (.ofWholeUnits (-1)),
    .unary "A" "S" .negZero, .lexical "A" "a" (.ofWholeUnits (-2))]

/-- The grammar of that draft. -/
def circularGrammar : Grammar := circularDraft.build.toOption.get (by decide +kernel)

theorem circularDraft_builds : circularDraft.build = .ok circularGrammar :=
  Draft.build_eq_ok _

end BestParse
