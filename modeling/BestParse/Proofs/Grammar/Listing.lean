import BestParse.Proofs.Grammar.Declarations

/-!
# The lists of productions

The searches find productions in six families of lists, and each search asks other ones.  Were a
production missing from one list or twice in another, two searches would work with two grammars.
`indexed_of_build` says that every list is the one its name promises, that a production occurs
once in each list of its form and symbols and in no other, and which lexicon entry a word of a
sentence stands for.

What is said of single lists follows from `Grammar.WellFormed.find_eq`, the statement about all
of them.
-/

namespace BestParse

namespace Grammar

variable {g : Grammar} {ids : List ProductionId} {P : Production → Prop}

/-- A list holds the numbers of the productions with a property, in ascending order. -/
structure Lists (g : Grammar) (ids : List ProductionId) (P : Production → Prop) : Prop where
  ascending : ids.Pairwise (· < ·)
  mem_iff : ∀ id, id ∈ ids ↔ id < g.numProductions ∧ P (g.production id)

theorem Lists.nodup (h : g.Lists ids P) : ids.Nodup := h.ascending.imp Nat.ne_of_lt

/-- A production occurs once where it belongs, and nowhere else. -/
theorem Lists.count_eq (h : g.Lists ids P) {id : ProductionId} (hid : id < g.numProductions)
    {Q : Prop} [Decidable Q] (hQ : P (g.production id) ↔ Q) :
    ids.count id = if Q then 1 else 0 := by
  rw [h.nodup.count]
  exact if_congr ((h.mem_iff id).trans ((and_iff_right hid).trans hQ)) rfl rfl

theorem Lists.count_eq_one (h : g.Lists ids P) {id : ProductionId} (hid : id < g.numProductions)
    (hP : P (g.production id)) : ids.count id = 1 :=
  List.count_eq_one_of_mem h.nodup ((h.mem_iff id).2 ⟨hid, hP⟩)

theorem Lists.count_eq_zero (h : g.Lists ids P) {id : ProductionId}
    (hP : ¬ P (g.production id)) : ids.count id = 0 :=
  List.count_eq_zero_of_not_mem fun hmem => hP ((h.mem_iff id).1 hmem).2

/-- A table entry lists the productions that answer its question. -/
theorem WellFormed.lists_find (h : g.WellFormed) {q : Query}
    (hP : ∀ p, q.answers p.expansion = true ↔ P p) : g.Lists (g.index.find q) P where
  ascending := by
    rw [h.find_eq]
    exact List.pairwise_lt_range.filter _
  mem_iff id := h.mem_find.trans (and_congr_right fun _ => hP _)

/-- Each list holds what it is named after. -/
structure Indexed (g : Grammar) : Prop where
  allBinary : g.Lists g.allBinary fun p => p.expansion.kind = .binary
  binaryWithLeft : ∀ l, g.Lists (g.binaryWithLeft l) fun p => ∃ r, p.expansion = .binary l r
  binaryWithRight : ∀ r, g.Lists (g.binaryWithRight r) fun p => ∃ l, p.expansion = .binary l r
  binaryWithPair : ∀ l r, g.Lists (g.binaryWithPair l r) fun p => p.expansion = .binary l r
  unaryWithChild : ∀ c, g.Lists (g.unaryWithChild c) fun p => p.expansion = .unary c
  lexicalWith : ∀ w, g.Lists (g.lexicalWith (some w)) fun p => p.expansion = .lexical w
  lexicalWith_none : g.lexicalWith none = []

theorem WellFormed.indexed (h : g.WellFormed) : g.Indexed where
  allBinary := h.lists_find (q := .binary) fun p => by
    cases p.expansion <;> simp [Query.answers, Expansion.kind]
  binaryWithLeft l := h.lists_find (q := .left l) fun p => by
    cases p.expansion <;> simp [Query.answers]
  binaryWithRight r := h.lists_find (q := .right r) fun p => by
    cases p.expansion <;> simp [Query.answers]
  binaryWithPair l r := h.lists_find (q := .pair l r) fun p => by
    cases p.expansion <;> simp [Query.answers]
  unaryWithChild c := h.lists_find (q := .child c) fun p => by
    cases p.expansion <;> simp [Query.answers]
  lexicalWith w := h.lists_find (q := .word w) fun p => by
    cases p.expansion <;> simp [Query.answers]
  lexicalWith_none := rfl

theorem Indexed.lists_lexicalWith (h : g.Indexed) (word : Option WordId) :
    g.Lists (g.lexicalWith word) fun p => ∃ w, word = some w ∧ p.expansion = .lexical w := by
  cases word with
  | none => exact ⟨by simp [h.lexicalWith_none], by simp [h.lexicalWith_none]⟩
  | some w => simpa using h.lexicalWith w

/-! ## Where a production occurs -/

/-- How often a production occurs in each list: once in those of its form and symbols, and never
in others. -/
def OccursByForm (g : Grammar) (id : ProductionId) : Prop :=
  match (g.production id).expansion with
  | .binary l r =>
    g.allBinary.count id = 1 ∧
    (∀ c, (g.binaryWithLeft c).count id = if c = l then 1 else 0) ∧
    (∀ c, (g.binaryWithRight c).count id = if c = r then 1 else 0) ∧
    (∀ b c, (g.binaryWithPair b c).count id = if b = l ∧ c = r then 1 else 0) ∧
    (∀ c, (g.unaryWithChild c).count id = 0) ∧
    ∀ word, (g.lexicalWith word).count id = 0
  | .unary child =>
    g.allBinary.count id = 0 ∧
    (∀ c, (g.binaryWithLeft c).count id = 0) ∧
    (∀ c, (g.binaryWithRight c).count id = 0) ∧
    (∀ b c, (g.binaryWithPair b c).count id = 0) ∧
    (∀ c, (g.unaryWithChild c).count id = if c = child then 1 else 0) ∧
    ∀ word, (g.lexicalWith word).count id = 0
  | .lexical w =>
    g.allBinary.count id = 0 ∧
    (∀ c, (g.binaryWithLeft c).count id = 0) ∧
    (∀ c, (g.binaryWithRight c).count id = 0) ∧
    (∀ b c, (g.binaryWithPair b c).count id = 0) ∧
    (∀ c, (g.unaryWithChild c).count id = 0) ∧
    ∀ word, (g.lexicalWith word).count id = if word = some w then 1 else 0

theorem Indexed.occursByForm (h : g.Indexed) {id : ProductionId} (hid : id < g.numProductions) :
    g.OccursByForm id := by
  unfold OccursByForm
  cases hexp : (g.production id).expansion with
  | binary l r =>
      refine ⟨h.allBinary.count_eq_one hid (by rw [hexp]; rfl), fun c => ?_, fun c => ?_,
        fun b c => ?_, fun c => ?_, fun word => ?_⟩
      · exact (h.binaryWithLeft c).count_eq hid (by simp [hexp, eq_comm])
      · exact (h.binaryWithRight c).count_eq hid (by simp [hexp, eq_comm])
      · exact (h.binaryWithPair b c).count_eq hid (by simp [hexp, eq_comm])
      · exact (h.unaryWithChild c).count_eq_zero (by simp [hexp])
      · exact (h.lists_lexicalWith word).count_eq_zero (by simp [hexp])
  | unary child =>
      refine ⟨h.allBinary.count_eq_zero (by simp [hexp, Expansion.kind]), fun c => ?_, fun c => ?_,
        fun b c => ?_, fun c => ?_, fun word => ?_⟩
      · exact (h.binaryWithLeft c).count_eq_zero (by simp [hexp])
      · exact (h.binaryWithRight c).count_eq_zero (by simp [hexp])
      · exact (h.binaryWithPair b c).count_eq_zero (by simp [hexp])
      · exact (h.unaryWithChild c).count_eq hid (by simp [hexp, eq_comm])
      · exact (h.lists_lexicalWith word).count_eq_zero (by simp [hexp])
  | lexical w =>
      refine ⟨h.allBinary.count_eq_zero (by simp [hexp, Expansion.kind]), fun c => ?_, fun c => ?_,
        fun b c => ?_, fun c => ?_, fun word => ?_⟩
      · exact (h.binaryWithLeft c).count_eq_zero (by simp [hexp])
      · exact (h.binaryWithRight c).count_eq_zero (by simp [hexp])
      · exact (h.binaryWithPair b c).count_eq_zero (by simp [hexp])
      · exact (h.unaryWithChild c).count_eq_zero (by simp [hexp])
      · exact (h.lists_lexicalWith word).count_eq hid (by simp [hexp])

/-! ## Words of a sentence -/

/-- The lexicon entry of a word: its own if it is in the lexicon, otherwise that of unknown words
if there is one. -/
structure ReadsWords (g : Grammar) (lexicon : String → Prop) : Prop where
  known : ∀ name, lexicon name → ∃ w, w < g.words.size ∧ g.wordName (some w) = name ∧
    g.token? name = some w
  unknown : ∀ name, ¬ lexicon name → lexicon unknownName → ∃ w, w < g.words.size ∧
    g.wordName (some w) = unknownName ∧ g.token? name = some w
  absent : ∀ name, ¬ lexicon name → ¬ lexicon unknownName → g.token? name = none

theorem readsWords {lexicon : String → Prop} (h : ∀ name, name ∈ g.words.names ↔ lexicon name) :
    g.ReadsWords lexicon := by
  have hsome : ∀ name, lexicon name → ∃ w, w < g.words.size ∧ g.wordName (some w) = name ∧
      g.word? name = some w := by
    intro name hname
    obtain ⟨w, hw, hw'⟩ := SymbolTable.mem_names_iff.1 ((h name).2 hname)
    exact ⟨w, hw, hw', SymbolTable.find?_eq_some_iff_name.2 ⟨hw, hw'⟩⟩
  have hnone : ∀ name, ¬ lexicon name → g.word? name = none := by
    intro name hname
    refine Option.eq_none_iff_forall_ne_some.2 fun w hw => hname ((h name).1 ?_)
    exact SymbolTable.mem_names_iff.2 ⟨w, SymbolTable.find?_eq_some_iff_name.1 hw⟩
  constructor
  · intro name hname
    obtain ⟨w, hw, hw', hfind⟩ := hsome name hname
    exact ⟨w, hw, hw', by rw [token?, hfind, Option.some_or]⟩
  · intro name hname hunknown
    obtain ⟨w, hw, hw', hfind⟩ := hsome unknownName hunknown
    exact ⟨w, hw, hw', by rw [token?, hnone name hname, Option.none_or, unknown?, hfind]⟩
  · intro name hname hunknown
    rw [token?, hnone name hname, Option.none_or, unknown?, hnone unknownName hunknown]

end Grammar

/-- The lists of a grammar that was built are exact, and no number in them reaches the one that
stands for an absent word. -/
theorem indexed_of_build {d : Draft} {g : Grammar} (hshort : d.rules.size < noWord)
    (h : d.build = .ok g) :
    g.Indexed ∧
    (∀ id, id < g.numProductions → g.OccursByForm id) ∧
    (∀ word, ((g.lexicalWith word).map fun id => (g.production id).parent).Nodup) ∧
    g.ReadsWords (fun name => ∃ r ∈ d.rules.toList, name ∈ r.words) ∧
    g.numProductions < noWord ∧ g.words.size < noWord := by
  have hwf := wellFormed_of_build h
  have hnum : g.numProductions = d.rules.size := by
    have hlength := congrArg List.length (rules_of_build h)
    rwa [Grammar.rules, List.length_map, List.length_range, Array.length_toList] at hlength
  exact ⟨hwf.indexed, fun id hid => hwf.indexed.occursByForm hid, hwf.nodup_parents,
    Grammar.readsWords fun name => mem_words_of_build h, hnum ▸ hshort,
    Nat.lt_of_le_of_lt (words_size_le_of_build h) hshort⟩

theorem indexed_of_build_circular :
    circularDraft.rules.size < noWord ∧ circularDraft.build = .ok circularGrammar ∧
      circularGrammar.Indexed ∧ circularGrammar.OccursByForm 0 := by
  have hshort : circularDraft.rules.size < noWord := by decide
  obtain ⟨hindexed, hoccurs, -⟩ := indexed_of_build hshort circularDraft_builds
  exact ⟨hshort, circularDraft_builds, hindexed, hoccurs 0 (by decide +kernel)⟩

end BestParse
