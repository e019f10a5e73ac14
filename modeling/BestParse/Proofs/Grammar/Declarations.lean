import BestParse.Proofs.Grammar.Names

/-!
# Declaring a grammar

A draft is made call by call: start symbols, rules and marks are declared in any order, and
`Draft.ofDeclarations` is the draft they leave.  Of the start symbols the last one counts.

`build_ofDeclarations` says from which calls a grammar is built, and that it is the grammar they
declare.  Nonterminals are kept in sixteen bits and words in thirty-two, and the greatest number
of either size stands for a symbol that is not there.  `Grammar.Declares` says that no symbol of
the grammar has one of these two numbers.  So nothing is lost by cutting, and the form of a
production is the one that its kept numbers show (`Production.keptKind`).
-/

namespace BestParse

/-! ## Calls -/

/-- One call that adds to a draft. -/
inductive Declaration where
  | start (name : String)
  | rule (rule : Rule)
  | factored (name : String)
deriving DecidableEq

namespace Declaration

/-- The start symbol that a call declares. -/
def start? : Declaration → Option String
  | .start name => some name
  | _ => none

/-- The rule that a call declares. -/
def rule? : Declaration → Option Rule
  | .rule r => some r
  | _ => none

/-- The nonterminal that a call marks as factored. -/
def mark? : Declaration → Option String
  | .factored name => some name
  | _ => none

/-- The start symbol of a list of calls, the last one declared. -/
def lastStart? (calls : List Declaration) : Option String := (calls.filterMap start?).getLast?

/-- The rules of a list of calls, in their order. -/
def rules (calls : List Declaration) : List Rule := calls.filterMap rule?

/-- The marks of a list of calls, in their order. -/
def marks (calls : List Declaration) : List String := calls.filterMap mark?

/-- The nonterminals that calls name: the start symbol that counts, the parents and children of
the rules, and the marks. -/
def nonterminals (calls : List Declaration) (start : String) : Finset String :=
  (start :: ((rules calls).flatMap Rule.nonterminals ++ marks calls)).toFinset

theorem length_rules_le (calls : List Declaration) : (rules calls).length ≤ calls.length :=
  List.length_filterMap_le _ _

end Declaration

namespace Draft

/-- Take up one call. -/
def declare (d : Draft) : Declaration → Draft
  | .start name => d.setStart name
  | .rule rule => d.addRule rule
  | .factored name => d.markFactored name

/-- The draft that a list of calls leaves. -/
def ofDeclarations (calls : List Declaration) : Draft := calls.foldl declare {}

theorem ofDeclarations_concat (calls : List Declaration) (call : Declaration) :
    ofDeclarations (calls ++ [call]) = (ofDeclarations calls).declare call := by
  rw [ofDeclarations, List.foldl_append]
  rfl

/-- The draft holds the last start symbol, and the rules and marks in their order. -/
theorem ofDeclarations_eq (calls : List Declaration) :
    ofDeclarations calls = {
      start := Declaration.lastStart? calls
      rules := (Declaration.rules calls).toArray
      factored := (Declaration.marks calls).toArray } := by
  induction calls using List.reverseRecOn with
  | nil => rfl
  | append_singleton calls call ih =>
      rw [ofDeclarations_concat, ih]
      cases call with
      | start name =>
          simp [declare, setStart, Declaration.lastStart?, Declaration.rules, Declaration.marks,
            Declaration.start?, Declaration.rule?, Declaration.mark?]
      | rule rule =>
          simp [declare, addRule, Declaration.lastStart?, Declaration.rules, Declaration.marks,
            Declaration.start?, Declaration.rule?, Declaration.mark?]
      | factored name =>
          simp [declare, markFactored, Declaration.lastStart?, Declaration.rules,
            Declaration.marks, Declaration.start?, Declaration.rule?, Declaration.mark?]

@[simp] theorem start_ofDeclarations (calls : List Declaration) :
    (ofDeclarations calls).start = Declaration.lastStart? calls := by
  rw [ofDeclarations_eq]

@[simp] theorem rules_ofDeclarations (calls : List Declaration) :
    (ofDeclarations calls).rules.toList = Declaration.rules calls := by
  rw [ofDeclarations_eq]

@[simp] theorem nonterminals_ofDeclarations (calls : List Declaration) (start : String) :
    (ofDeclarations calls).nonterminals start = Declaration.nonterminals calls start := by
  rw [ofDeclarations_eq]
  rfl

end Draft

/-! ## Numbers as they are kept -/

/-- The greatest number of thirty-two bits, which no word of a grammar has. -/
def noWord : Nat := 4294967295

/-- A word number cut to thirty-two bits, with `noWord` for an absent word. -/
def longNumber (w : Option WordId) : Nat := w.getD noWord % 4294967296

theorem shortNumber_some {nt : NonTerminal} (h : nt < noChild) : shortNumber (some nt) = nt :=
  Nat.mod_eq_of_lt (Nat.lt_succ_of_lt h)

theorem longNumber_some {w : WordId} (h : w < noWord) : longNumber (some w) = w :=
  Nat.mod_eq_of_lt (Nat.lt_succ_of_lt h)

/-- The numbers of a production as they are kept. -/
def Production.kept (p : Production) : Signature :=
  ((shortNumber p.parent, shortNumber p.expansion.left?),
    (shortNumber p.expansion.right?, longNumber p.expansion.word?))

/-- Signatures leave words uncut.  While the words can be numbered in thirty-two bits, with one
number left for an absent word, they tell apart what the kept numbers do. -/
theorem Production.signature_eq_iff_kept_eq {p p' : Production}
    (hp : ∀ w ∈ p.expansion.word?, w < noWord) (hp' : ∀ w ∈ p'.expansion.word?, w < noWord) :
    p.signature = p'.signature ↔ p.kept = p'.kept := by
  have hword : p.expansion.word?.elim 0 (· + 1) = p'.expansion.word?.elim 0 (· + 1) ↔
      longNumber p.expansion.word? = longNumber p'.expansion.word? :=
    ⟨fun h => congrArg longNumber (word_eq_of_elim_eq h),
      fun h => by rw [cut_inj noWord hp hp' h]⟩
  simp only [signature, kept, Prod.mk.injEq, hword]

/-- The form of a production that the numbers show in which its symbols are kept. -/
def Production.keptKind (p : Production) : Kind :=
  if shortNumber p.expansion.right? ≠ noChild then .binary
  else if longNumber p.expansion.word? ≠ noWord then .lexical
  else .unary

/-- Below the two numbers for absent symbols, the kept numbers show the true form. -/
theorem Production.keptKind_eq {p : Production} {n w : Nat} (hn : n ≤ noChild) (hw : w ≤ noWord)
    (h : p.expansion.Scoped n w) : p.keptKind = p.expansion.kind := by
  unfold keptKind
  cases hexp : p.expansion with
  | binary l r =>
      rw [hexp] at h
      have hr : r < noChild := Nat.lt_of_lt_of_le h.2 hn
      rw [Expansion.right?, shortNumber_some hr, if_pos (Nat.ne_of_lt hr)]
      rfl
  | unary c => rfl
  | lexical v =>
      rw [hexp] at h
      have hv : v < noWord := Nat.lt_of_lt_of_le h hw
      rw [Expansion.right?, Expansion.word?, longNumber_some hv, if_pos (Nat.ne_of_lt hv)]
      · rfl
      · rintro l r ⟨⟩

/-! ## Names and numbers -/

theorem SymbolTable.find?_eq_some_iff_name {t : SymbolTable} {name : String} {i : Nat} :
    t.find? name = some i ↔ i < t.size ∧ t.name i = name := by
  rw [find?_eq_some_iff]
  constructor
  · intro h
    exact ⟨(Array.getElem?_eq_some_iff.1 h).1, name_eq_of_getElem? h⟩
  · rintro ⟨hi, rfl⟩
    exact getElem?_names hi

theorem SymbolTable.mem_names_iff {t : SymbolTable} {name : String} :
    name ∈ t.names ↔ ∃ i, i < t.size ∧ t.name i = name := by
  constructor
  · intro h
    obtain ⟨i, hi⟩ := Array.getElem?_of_mem h
    exact ⟨i, find?_eq_some_iff_name.1 (find?_eq_some_iff.2 hi)⟩
  · rintro ⟨i, hi, rfl⟩
    exact name_mem hi

/-- There are no more words than rules. -/
theorem length_words_le : ∀ rules : List Rule, (rules.flatMap Rule.words).length ≤ rules.length
  | [] => Nat.le_refl 0
  | rule :: rules => by
      have hrest := length_words_le rules
      have hrule : rule.words.length ≤ 1 := by
        cases rule with
        | binary p l r logprob => exact Nat.zero_le 1
        | unary p c logprob => exact Nat.zero_le 1
        | lexical p w logprob => exact Nat.le_refl 1
      rw [List.flatMap_cons, List.length_append, List.length_cons]
      omega

/-- A table that holds words of rules only has no more numbers than there are rules. -/
theorem SymbolTable.size_le_length {t : SymbolTable} {rules : List Rule}
    (h : ∀ name ∈ t.names, ∃ r ∈ rules, name ∈ r.words) : t.size ≤ rules.length := by
  have hwords : ∀ name ∈ t.names, name ∈ (rules.flatMap Rule.words).toFinset := by
    intro name hname
    rw [List.mem_toFinset, List.mem_flatMap]
    exact h name hname
  calc t.size
      ≤ (rules.flatMap Rule.words).toFinset.card := size_le_card hwords
    _ ≤ (rules.flatMap Rule.words).length := List.toFinset_card_le _
    _ ≤ rules.length := length_words_le _

/-- A grammar has no more words than its draft has rules. -/
theorem words_size_le_of_build {d : Draft} {g : Grammar} (h : d.build = .ok g) :
    g.words.size ≤ d.rules.size := by
  rw [← Array.length_toList]
  exact SymbolTable.size_le_length fun _ hname => (mem_words_of_build h).1 hname

/-! ## The grammar that is declared -/

/-- A grammar is the one that calls declare. -/
structure Grammar.Declares (g : Grammar) (calls : List Declaration) : Prop where
  /-- The start symbol is the last one declared. -/
  start_eq : Declaration.lastStart? calls = some (g.nonterminalName g.start)
  /-- By name, the productions are the rules in their order. -/
  rules_eq : g.rules = Declaration.rules calls
  /-- Productions use numbers that the grammar gave out. -/
  numbered : ∀ id, id < g.numProductions → (g.production id).parent < g.numNonterminals ∧
    (g.production id).expansion.Scoped g.numNonterminals g.words.size
  /-- No nonterminal has the number of an absent child. -/
  nonterminal_lt : ∀ nt, nt < g.numNonterminals → nt < noChild ∧ shortNumber (some nt) = nt
  /-- No word has the number of an absent word. -/
  word_lt : ∀ w, w < g.words.size → w < noWord ∧ longNumber (some w) = w
  /-- The kept numbers show the form of each production. -/
  keptKind_eq : ∀ id, id < g.numProductions →
    (g.production id).keptKind = (g.production id).expansion.kind
  /-- Names and numbers of nonterminals correspond. -/
  nonterminal?_eq_some_iff : ∀ name nt, g.nonterminal? name = some nt ↔
    nt < g.numNonterminals ∧ g.nonterminalName nt = name
  /-- The nonterminals are those that the calls name. -/
  exists_nonterminal_iff : ∀ name, (∃ nt, g.nonterminal? name = some nt) ↔
    name ∈ Declaration.nonterminals calls (g.nonterminalName g.start)
  /-- Names and numbers of words correspond. -/
  word?_eq_some_iff : ∀ name w, g.word? name = some w ↔
    w < g.words.size ∧ g.wordName (some w) = name
  /-- The words are those of the lexical rules. -/
  exists_word_iff : ∀ name, (∃ w, g.word? name = some w) ↔
    ∃ r ∈ Declaration.rules calls, name ∈ r.words

/-- A grammar built from calls is the one they declare. -/
theorem Grammar.declares_of_build {calls : List Declaration} {g : Grammar}
    (hshort : calls.length < noWord) (h : (Draft.ofDeclarations calls).build = .ok g) :
    g.Declares calls := by
  have hadmissible := admissible_of_build h
  have hwf := wellFormed_of_build h
  have hnts : g.numNonterminals < noChild := by
    obtain ⟨-, -, -, -, -, hfew, -, -⟩ := exists_records_of_build h
    exact hfew
  have hwords : g.words.size < noWord :=
    calc g.words.size
        ≤ (Draft.ofDeclarations calls).rules.size := words_size_le_of_build h
      _ = (Declaration.rules calls).length := by
          rw [← Draft.rules_ofDeclarations, Array.length_toList]
      _ ≤ calls.length := Declaration.length_rules_le calls
      _ < noWord := hshort
  refine {
    start_eq := by rw [← Draft.start_ofDeclarations, hadmissible.start_eq]
    rules_eq := by rw [rules_of_build h, Draft.rules_ofDeclarations]
    numbered := fun id hid => ⟨hwf.parent_lt id hid, hwf.children_scoped id hid⟩
    nonterminal_lt := fun nt hnt =>
      ⟨Nat.lt_trans hnt hnts, shortNumber_some (Nat.lt_trans hnt hnts)⟩
    word_lt := fun w hw => ⟨Nat.lt_trans hw hwords, longNumber_some (Nat.lt_trans hw hwords)⟩
    keptKind_eq := fun id hid => Production.keptKind_eq (Nat.le_of_lt hnts) (Nat.le_of_lt hwords)
      (hwf.children_scoped id hid)
    nonterminal?_eq_some_iff := fun _ _ => SymbolTable.find?_eq_some_iff_name
    exists_nonterminal_iff := fun name => ?_
    word?_eq_some_iff := fun _ _ => SymbolTable.find?_eq_some_iff_name
    exists_word_iff := fun name => ?_ }
  · rw [← Draft.nonterminals_ofDeclarations, ← mem_nonterminals_of_build h,
      SymbolTable.mem_names_iff]
    exact exists_congr fun _ => SymbolTable.find?_eq_some_iff_name
  · rw [← Draft.rules_ofDeclarations, ← mem_words_of_build h, SymbolTable.mem_names_iff]
    exact exists_congr fun _ => SymbolTable.find?_eq_some_iff_name

/-- A grammar is built from exactly these calls: a start symbol is declared, every rule is finite,
no two rules agree in form and names, there are fewer nonterminals than sixteen bits can number
beside the absent one, and some rule expands the start symbol.  It is the grammar declared. -/
theorem build_ofDeclarations (calls : List Declaration) (hshort : calls.length < noWord) :
    ((∃ g, (Draft.ofDeclarations calls).build = .ok g) ↔ ∃ start,
      Declaration.lastStart? calls = some start ∧
      (∀ r ∈ Declaration.rules calls, r.logprob.isFinite = true) ∧
      (Declaration.rules calls).Pairwise (fun r r' => r.key ≠ r'.key) ∧
      (Declaration.nonterminals calls start).card < noChild ∧
      ∃ r ∈ Declaration.rules calls, r.parent = start) ∧
    ∀ g, (Draft.ofDeclarations calls).build = .ok g → g.Declares calls := by
  refine ⟨⟨?_, ?_⟩, fun g hbuild => Grammar.declares_of_build hshort hbuild⟩
  · rintro ⟨g, hbuild⟩
    have h := admissible_of_build hbuild
    rw [← Draft.start_ofDeclarations, ← Draft.rules_ofDeclarations]
    exact ⟨_, h.start_eq, h.finite, h.distinct, Draft.nonterminals_ofDeclarations calls _ ▸ h.few,
      h.used⟩
  · rintro ⟨start, hstart, hfinite, hdistinct, hfew, hused⟩
    have hadmissible : (Draft.ofDeclarations calls).Admissible start := by
      constructor
      · rw [Draft.start_ofDeclarations, hstart]
      · rwa [Draft.rules_ofDeclarations]
      · rwa [Draft.rules_ofDeclarations]
      · rwa [Draft.nonterminals_ofDeclarations]
      · rwa [Draft.rules_ofDeclarations]
    exact hadmissible.exists_build

/-- Calls that declare a grammar, with a start symbol that does not count and a mark on a
nonterminal without rules. -/
def mixedCalls : List Declaration :=
  [.start "A", .rule (.binary "S" "A" "S" .negZero), .factored "F", .start "S",
    .rule (.unary "S" "A" .negZero), .rule (.lexical "S" "A" .negZero),
    .rule (.lexical "A" "a" .negZero)]

theorem build_ofDeclarations_mixed : mixedCalls.length < noWord ∧
    ∃ g, (Draft.ofDeclarations mixedCalls).build = .ok g ∧ g.Declares mixedCalls := by
  have hshort : mixedCalls.length < noWord := by decide
  obtain ⟨hbuilt, hdeclares⟩ := build_ofDeclarations mixedCalls hshort
  obtain ⟨g, hg⟩ := hbuilt.2 ⟨"S", rfl, by decide, by decide, by decide +kernel, by decide⟩
  exact ⟨hshort, g, hg, hdeclares g hg⟩

end BestParse
