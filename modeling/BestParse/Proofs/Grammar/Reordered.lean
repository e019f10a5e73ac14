import BestParse.Proofs.Grammar.Names

/-!
# Grammars with other numbers

The order of a draft's rules decides which number a symbol, word or production gets, and so
the order of every list of the grammar.  It decides nothing else.  Two drafts that declare the
same in different orders are both built or both refused (`Draft.Reorders.exists_build_iff`).
Which rule is named in the error may differ.

Two grammars *renumber* each other when they say the same by name.  Then each production has
one of the same rule in the other grammar (`Renumbers.exists_production`), and a word of a
sentence stands for the same entry in both lexicons (`Renumbers.token?_eq_some`).
-/

namespace BestParse

/-- Two drafts declare the same start symbol, rules and marks, in some order. -/
structure Draft.Reorders (d d' : Draft) : Prop where
  start_eq : d.start = d'.start
  rules_perm : d.rules.toList.Perm d'.rules.toList
  marks : ∀ name, name ∈ d.factored ↔ name ∈ d'.factored

/-- Two grammars say the same by name. -/
structure Grammar.Renumbers (g g' : Grammar) : Prop where
  start : g.nonterminalName g.start = g'.nonterminalName g'.start
  rules_perm : g.rules.Perm g'.rules
  nonterminals : ∀ name, name ∈ g.nonterminals.names ↔ name ∈ g'.nonterminals.names
  words : ∀ name, name ∈ g.words.names ↔ name ∈ g'.words.names
  factored : ∀ nt nt', nt < g.numNonterminals → nt' < g'.numNonterminals →
    g.nonterminalName nt = g'.nonterminalName nt' → g.isFactored nt = g'.isFactored nt'

/-! ## Rules of productions -/

namespace Production

variable {nts words : SymbolTable} {p : Production} {logprob : Score}

theorem rule_eq_lexical_iff {parent word : String} :
    p.rule nts words = .lexical parent word logprob ↔
      ∃ w, p.expansion = .lexical w ∧ nts.name p.parent = parent ∧ words.name w = word ∧
        p.logprob = logprob := by
  unfold rule
  cases p.expansion with
  | binary l r => simp
  | unary c => simp
  | lexical w => simp

theorem rule_eq_unary_iff {parent child : String} :
    p.rule nts words = .unary parent child logprob ↔
      ∃ c, p.expansion = .unary c ∧ nts.name p.parent = parent ∧ nts.name c = child ∧
        p.logprob = logprob := by
  unfold rule
  cases p.expansion with
  | binary l r => simp
  | unary c => simp
  | lexical w => simp

theorem rule_eq_binary_iff {parent left right : String} :
    p.rule nts words = .binary parent left right logprob ↔
      ∃ l r, p.expansion = .binary l r ∧ nts.name p.parent = parent ∧ nts.name l = left ∧
        nts.name r = right ∧ p.logprob = logprob := by
  unfold rule
  cases p.expansion with
  | binary l r => simp
  | unary c => simp
  | lexical w => simp

end Production

/-! ## Words -/

/-- A table finds the names that it holds. -/
theorem SymbolTable.map_name_find? (t : SymbolTable) (name : String) :
    (t.find? name).map t.name = if name ∈ t.names then some name else none := by
  cases hfind : t.find? name with
  | some i =>
      have hi := find?_eq_some_iff.1 hfind
      simp [Array.mem_of_getElem? hi, name_eq_of_getElem? hi]
  | none =>
      have hnot : name ∉ t.names := by
        intro hmem
        obtain ⟨i, hi⟩ := Array.getElem?_of_mem hmem
        rw [find?_eq_some_iff.2 hi] at hfind
        cases hfind
      simp [hnot]

/-- A word stands for itself, for the unknown word or for nothing. -/
theorem Grammar.map_name_token? (g : Grammar) (word : String) :
    (g.token? word).map g.words.name =
      (if word ∈ g.words.names then some word else none).or
        (if unknownName ∈ g.words.names then some unknownName else none) := by
  rw [token?, unknown?, word?, word?, Option.map_or, SymbolTable.map_name_find?,
    SymbolTable.map_name_find?]

namespace Grammar.Renumbers

variable {g g' : Grammar}

theorem symm (h : g.Renumbers g') : g'.Renumbers g where
  start := h.start.symm
  rules_perm := h.rules_perm.symm
  nonterminals name := (h.nonterminals name).symm
  words name := (h.words name).symm
  factored nt nt' hnt hnt' hname := (h.factored nt' nt hnt' hnt hname.symm).symm

theorem map_name_token? (h : g.Renumbers g') (word : String) :
    (g.token? word).map g.words.name = (g'.token? word).map g'.words.name := by
  simp only [Grammar.map_name_token?, h.words]

/-- A word stands for the entries of one name in both lexicons. -/
theorem token?_eq_some (h : g.Renumbers g') {word : String} {w w' : WordId}
    (hw : g.token? word = some w) (hw' : w' < g'.words.size)
    (hname : g'.words.name w' = g.words.name w) : g'.token? word = some w' := by
  have hmap := h.map_name_token? word
  rw [hw, Option.map_some, ← hname] at hmap
  obtain ⟨v, hv, hvname⟩ := Option.map_eq_some_iff.1 hmap.symm
  have hlt : v < g'.words.size := by
    have hfound : ∀ name, g'.words.find? name = some v → v < g'.words.size := fun name hfind =>
      (Array.getElem?_eq_some_iff.1 (SymbolTable.find?_eq_some_iff.1 hfind)).1
    rcases Option.or_eq_some_iff.1 hv with hfind | ⟨-, hfind⟩
    · exact hfound _ hfind
    · exact hfound _ hfind
  rw [hv, SymbolTable.eq_of_name_eq hlt hw' hvname]

/-! ## Symbols and productions -/

theorem exists_nonterminal (h : g.Renumbers g') {nt : NonTerminal} (hnt : nt < g.numNonterminals) :
    ∃ nt', nt' < g'.numNonterminals ∧ g'.nonterminalName nt' = g.nonterminalName nt := by
  obtain ⟨nt', hlt, hname⟩ := Array.mem_iff_getElem.1
    ((h.nonterminals _).1 (SymbolTable.name_mem hnt))
  exact ⟨nt', hlt, SymbolTable.name_eq_of_getElem? (Array.getElem?_eq_some_iff.2 ⟨hlt, hname⟩)⟩

/-- Each production has one of the same rule in the other grammar. -/
theorem exists_production (h : g.Renumbers g') {id : ProductionId} (hid : id < g.numProductions) :
    ∃ id', id' < g'.numProductions ∧ g'.rule id' = g.rule id := by
  have hmem : g.rule id ∈ g.rules := List.mem_map_of_mem (List.mem_range.2 hid)
  obtain ⟨id', hid', hrule⟩ := List.mem_map.1 (h.rules_perm.mem_iff.1 hmem)
  exact ⟨id', List.mem_range.1 hid', hrule⟩

end Grammar.Renumbers

/-! ## Drafts -/

theorem isFactored_of_build {d : Draft} {g : Grammar} (h : d.build = .ok g) {nt : NonTerminal}
    (hnt : nt < g.numNonterminals) :
    g.isFactored nt =
      (hasFactoredName (g.nonterminalName nt) || d.factored.contains (g.nonterminalName nt)) := by
  obtain ⟨s, -, -, rfl⟩ := exists_numbering_of_build h
  have hget := SymbolTable.getElem?_names hnt
  change ((s.finish d.factored).nonterminals.names.map fun name =>
    hasFactoredName name || d.factored.contains name).getD nt false = _
  rw [Array.getD_eq_getD_getElem?, Array.getElem?_map, hget]
  rfl

namespace Draft.Reorders

variable {d d' : Draft}

theorem symm (h : d.Reorders d') : d'.Reorders d where
  start_eq := h.start_eq.symm
  rules_perm := h.rules_perm.symm
  marks name := (h.marks name).symm

theorem exists_build (h : d.Reorders d') {g : Grammar} (hbuild : d.build = .ok g) :
    ∃ g', d'.build = .ok g' := by
  have hadm := admissible_of_build hbuild
  exact (hadm.perm (h.start_eq ▸ hadm.start_eq) h.rules_perm.symm
    fun name => (h.marks name).2).exists_build

/-- Drafts that declare the same are both built or both refused. -/
theorem exists_build_iff (h : d.Reorders d') :
    (∃ g, d.build = .ok g) ↔ ∃ g', d'.build = .ok g' :=
  ⟨fun ⟨_, hbuild⟩ => h.exists_build hbuild, fun ⟨_, hbuild⟩ => h.symm.exists_build hbuild⟩

/-- Their grammars say the same by name. -/
theorem renumbers (h : d.Reorders d') {g g' : Grammar} (hbuild : d.build = .ok g)
    (hbuild' : d'.build = .ok g') : g.Renumbers g' := by
  have hstart : g.nonterminalName g.start = g'.nonterminalName g'.start :=
    Option.some.inj ((admissible_of_build hbuild).start_eq.symm.trans
      (h.start_eq.trans (admissible_of_build hbuild').start_eq))
  constructor
  · exact hstart
  · rw [rules_of_build hbuild, rules_of_build hbuild']
    exact h.rules_perm
  · intro name
    rw [mem_nonterminals_of_build hbuild, mem_nonterminals_of_build hbuild', ← hstart]
    simp only [Draft.mem_nonterminals, h.rules_perm.mem_iff, h.marks]
  · intro name
    rw [mem_words_of_build hbuild, mem_words_of_build hbuild']
    simp only [h.rules_perm.mem_iff]
  · intro nt nt' hnt hnt' hname
    have hmarked : d.factored.contains (g'.nonterminalName nt') =
        d'.factored.contains (g'.nonterminalName nt') := by
      rw [Bool.eq_iff_iff, Array.contains_iff_mem, Array.contains_iff_mem]
      exact h.marks _
    rw [isFactored_of_build hbuild hnt, isFactored_of_build hbuild' hnt', hname, hmarked]

end Draft.Reorders

end BestParse
