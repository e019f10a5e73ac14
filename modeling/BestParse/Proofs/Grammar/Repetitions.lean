import BestParse.Proofs.Grammar.Declarations
import BestParse.Proofs.Grammar.Reordered

/-!
# Repeated rules

A draft is refused as repeating a rule when a signature comes up twice.  Signatures hold numbers
cut to sixteen bits, and the number of nonterminals is checked only after the last rule, so a
signature says which rule it stands for only as long as the numbers fit.

`repetition_of_build` says what the error means: the rule it names has the form and the names of
an earlier one, or the rules up to it already name more nonterminals than there are numbers.  In
the second case there need not be a repetition.  Words stand uncut in signatures, which makes no
difference while thirty-two bits can number them (`Numbering.Records.add_eq_duplicate_iff`).  `apart_reported_twice` is such a draft: its last
nonterminal gets the number that stands for an absent child, and a binary rule passes for the
unary rule over its left child.
-/

namespace BestParse

/-! ## Rules that are refused -/

theorem Rule.label_eq_of_key_eq {r r' : Rule} (h : r.key = r'.key) : r.label = r'.label := by
  cases r <;> cases r' <;> simp_all [key, kind, parent, right, label]

namespace Numbering

variable {start : String} {rules : List Rule} {rule : Rule} {s : Numbering}

/-- The nonterminals that a start symbol and rules name. -/
def named (start : String) (rules : List Rule) : Finset String :=
  (start :: rules.flatMap Rule.nonterminals).toFinset

theorem mem_named {name : String} :
    name ∈ named start rules ↔ name = start ∨ ∃ r ∈ rules, name ∈ r.nonterminals := by
  simp [named]

theorem named_subset {more : List Rule} (h : ∀ r ∈ rules, r ∈ more) :
    named start rules ⊆ named start more := by
  intro name hname
  rw [mem_named] at hname ⊢
  exact hname.imp_right fun ⟨r, hr, hname⟩ => ⟨r, h r hr, hname⟩

/-- There are as many numbers as nonterminals named. -/
theorem Records.size_eq (h : Records start rules s) :
    s.nonterminals.size = (named start rules).card := by
  rw [SymbolTable.size_eq_card]
  congr 1
  ext name
  rw [List.mem_toFinset, Array.mem_toList_iff, h.nonterminals, mem_named]

theorem Records.size_symbols (h : Records start rules s) :
    (symbols s.nonterminals s.words rule).2.1.size = (named start (rules ++ [rule])).card := by
  rw [SymbolTable.size_eq_card]
  congr 1
  ext name
  rw [List.mem_toFinset, Array.mem_toList_iff, mem_names_symbols.1, h.nonterminals, mem_named]
  simp [or_and_right, exists_or, or_assoc]

/-- A rule is refused when it is not finite, and otherwise when its signature was seen. -/
theorem add_eq_error_iff {e : GrammarError} :
    s.add rule = .error e ↔
      rule.logprob.isFinite = false ∧ e = .nonFinite rule.label rule.logprob ∨
      rule.logprob.isFinite = true ∧
        s.seen.contains (symbols s.nonterminals s.words rule).1.signature = true ∧
        e = .duplicate rule.label := by
  unfold add
  dsimp only
  rw [logprob_symbols]
  cases rule.logprob.isFinite with
  | false => simp [@eq_comm _ e]
  | true =>
      cases s.seen.contains (symbols s.nonterminals s.words rule).1.signature with
      | true => simp [@eq_comm _ e]
      | false => simp

/-- While the words can be numbered in thirty-two bits, the next rule is refused as a repetition
exactly when its numbers as they are kept are those of an earlier production. -/
theorem Records.add_eq_duplicate_iff (h : Records start rules s) (hsound : s.Sound)
    (hshort : rules.length + 1 ≤ noWord) :
    s.add rule = .error (.duplicate rule.label) ↔ rule.logprob.isFinite = true ∧
      ∃ p ∈ s.productions, p.kept = (symbols s.nonterminals s.words rule).1.kept := by
  obtain ⟨-, hscoped, -, hmore⟩ := symbols_scoped s.nonterminals s.words rule
  have hnames : ∀ name ∈ (symbols s.nonterminals s.words rule).2.2.names,
      ∃ r ∈ rules ++ [rule], name ∈ r.words := by
    intro name hname
    obtain hname | hname := mem_names_symbols.2.1 hname
    · obtain ⟨r, hr, hname⟩ := (h.words name).1 hname
      exact ⟨r, List.mem_append_left _ hr, hname⟩
    · exact ⟨rule, by simp, hname⟩
  have hsize : (symbols s.nonterminals s.words rule).2.2.size ≤ noWord := by
    refine Nat.le_trans (SymbolTable.size_le_length hnames) ?_
    rwa [List.length_append, List.length_singleton]
  have hword : ∀ p ∈ s.productions, ∀ w ∈ p.expansion.word?, w < noWord := fun p hp w hw =>
    Nat.lt_of_lt_of_le ((hsound.children_scoped p hp).word_lt hw) (Nat.le_trans hmore hsize)
  have hkept : ∀ p ∈ s.productions,
      (p.signature = (symbols s.nonterminals s.words rule).1.signature ↔
        p.kept = (symbols s.nonterminals s.words rule).1.kept) := fun p hp =>
    Production.signature_eq_iff_kept_eq (hword p hp) fun w hw =>
      Nat.lt_of_lt_of_le (hscoped.word_lt hw) hsize
  rw [add_eq_error_iff]
  constructor
  · rintro (⟨-, hnonFinite⟩ | ⟨hfinite, hseen, -⟩)
    · cases hnonFinite
    · obtain ⟨p, hp, hsignature⟩ := h.seen _ hseen
      exact ⟨hfinite, p, hp, (hkept p hp).1 hsignature⟩
  · rintro ⟨hfinite, p, hp, hsame⟩
    exact Or.inr ⟨hfinite, (hkept p hp).2 hsame ▸ hsound.seen p hp, rfl⟩

/-- The rule that decides the error comes after rules that were all taken up. -/
theorem exists_of_foldlM_error {e : GrammarError} : ∀ {rules : List Rule} {s : Numbering},
    rules.foldlM add s = .error e → ∃ done rule rest s', rules = done ++ rule :: rest ∧
      done.foldlM add s = .ok s' ∧ s'.add rule = .error e
  | [], s, h => by cases h
  | rule :: rules, s, h => by
      rw [List.foldlM_cons] at h
      cases hadd : s.add rule with
      | error e' =>
          rw [hadd] at h
          cases h
          exact ⟨[], rule, rules, s, rfl, rfl, hadd⟩
      | ok next =>
          rw [hadd] at h
          obtain ⟨done, rule', rest, s', rfl, hfold, herror⟩ := exists_of_foldlM_error h
          refine ⟨rule :: done, rule', rest, s', rfl, ?_, herror⟩
          rw [List.foldlM_cons, hadd]
          exact hfold

/-- Finite rules are refused as repetitions only. -/
theorem exists_duplicate_of_foldlM {e : GrammarError}
    (hfinite : ∀ r ∈ rules, r.logprob.isFinite = true)
    (h : rules.foldlM add (init start) = .error e) : ∃ label, e = .duplicate label := by
  obtain ⟨done, rule, rest, s, rfl, -, herror⟩ := exists_of_foldlM_error h
  obtain ⟨hinfinite, -⟩ | ⟨-, -, hduplicate⟩ := add_eq_error_iff.1 herror
  · cases hinfinite.symm.trans (hfinite rule (by simp))
  · exact ⟨rule.label, hduplicate⟩

/-- The first rule that is refused as a repetition has the key of an earlier rule, or comes when
there are more nonterminals than numbers. -/
theorem repetition_of_foldlM {label : String}
    (h : rules.foldlM add (init start) = .error (.duplicate label)) :
    ∃ done rule rest, rules = done ++ rule :: rest ∧ rule.label = label ∧
      ((∃ r ∈ done, r.key = rule.key) ∨ noChild < (named start (done ++ [rule])).card) := by
  obtain ⟨done, rule, rest, s, hrules, hfold, herror⟩ := exists_of_foldlM_error h
  have hsound := sound_foldlM _ (sound_init start) hfold
  have hrecords := (records_init start).foldlM _ (sound_init start) hfold
  rw [List.nil_append] at hrecords
  obtain ⟨-, hnonFinite⟩ | ⟨-, hseen, hduplicate⟩ := add_eq_error_iff.1 herror
  · cases hnonFinite
  · cases hduplicate
    refine ⟨done, rule, rest, hrules, rfl, ?_⟩
    by_cases hfit : (named start (done ++ [rule])).card ≤ noChild
    · exact Or.inl (hrecords.exists_key_eq hsound hseen (hrecords.size_symbols ▸ hfit))
    · exact Or.inr (Nat.lt_of_not_le hfit)

end Numbering

namespace SymbolTable

variable {t : SymbolTable} {name : String}

theorem intern_of_find? {i : Nat} (h : t.find? name = some i) : t.intern name = (i, t) := by
  unfold intern
  split
  · next i' h' => rw [Option.some.inj (h'.symm.trans h)]
  · next h' => cases h'.symm.trans h

theorem intern_fst_of_not_mem (h : name ∉ t.names) : (t.intern name).1 = t.size := by
  unfold intern
  split
  · next i h' => exact absurd (Array.mem_of_getElem? ((t.find_eq name i).1 h')) h
  · rfl

end SymbolTable

namespace Numbering

variable {start : String} {rules : List Rule} {s : Numbering}

/-- The nonterminal that gets the number of an absent child makes a binary rule pass for the unary
rule over its left child. -/
theorem Records.add_absent {p c x : String} {logprob logprob' : Score}
    (h : Records start rules s) (hsound : s.Sound) (hunary : Rule.unary p c logprob ∈ rules)
    (hnew : x ∉ s.nonterminals.names) (hsize : s.nonterminals.size = noChild)
    (hfinite : logprob'.isFinite = true) :
    s.add (.binary p c x logprob') = .error (.duplicate (Rule.binary p c x logprob').label) := by
  rw [← h.rules_eq] at hunary
  obtain ⟨q, hq, hrule⟩ := List.mem_map.1 hunary
  have hq := Array.mem_toList_iff.1 hq
  obtain ⟨child, hexp, hparent_name, hchild_name, -⟩ := Production.rule_eq_unary_iff.1 hrule
  have hscoped := hsound.children_scoped q hq
  rw [hexp] at hscoped
  have hparent : s.nonterminals.intern p = (q.parent, s.nonterminals) :=
    SymbolTable.intern_of_find?
      (SymbolTable.find?_eq_some_iff_name.2 ⟨hsound.parent_lt q hq, hparent_name⟩)
  have hchild : s.nonterminals.intern c = (child, s.nonterminals) :=
    SymbolTable.intern_of_find? (SymbolTable.find?_eq_some_iff_name.2 ⟨hscoped, hchild_name⟩)
  have hsignature : (symbols s.nonterminals s.words (.binary p c x logprob')).1.signature =
      q.signature := by
    simp only [symbols, hparent, hchild, SymbolTable.intern_fst_of_not_mem hnew, hsize,
      Production.signature, hexp]
    rfl
  exact add_eq_error_iff.2 (Or.inr ⟨hfinite, hsignature ▸ hsound.seen q hq, rfl⟩)

end Numbering

/-! ## What the errors mean -/

open BestParse.Numbering (named)

theorem Declaration.named_subset_nonterminals (calls : List Declaration) (start : String) :
    named start (rules calls) ⊆ nonterminals calls start := by
  intro name hname
  rw [Numbering.mem_named] at hname
  rw [← Draft.nonterminals_ofDeclarations, Draft.mem_nonterminals, Draft.rules_ofDeclarations]
  exact Or.inl hname

/-- A repetition is reported while the rules are numbered. -/
theorem Draft.foldlM_of_duplicate {d : Draft} {label : String}
    (h : d.build = .error (.duplicate label)) : ∃ start, d.start = some start ∧
      d.rules.toList.foldlM Numbering.add (Numbering.init start) = .error (.duplicate label) := by
  cases hstart : d.start with
  | none => simp [build, hstart] at h
  | some start =>
      refine ⟨start, rfl, ?_⟩
      cases hfold : d.rules.toList.foldlM Numbering.add (Numbering.init start) with
      | error e =>
          rw [build_of_rejected hstart hfold] at h
          rw [Except.error.inj h]
      | ok s =>
          rw [build_of_numbered hstart hfold] at h
          split at h
          · cases h
          · split at h
            · cases h
            · cases h

/-- When the number of nonterminals is checked, they are as many as the calls name. -/
theorem Draft.tooMany_of_numbered {calls : List Declaration} {start : String} {s : Numbering}
    (hstart : Declaration.lastStart? calls = some start)
    (hfold : (Declaration.rules calls).foldlM Numbering.add (Numbering.init start) = .ok s)
    (hmany : noChild ≤ (Declaration.nonterminals calls start).card) :
    (ofDeclarations calls).build =
      .error (.tooManyNonterminals (Declaration.nonterminals calls start).card) := by
  have hrecords := (Numbering.records_init start).foldlM _ (Numbering.sound_init start) hfold
  rw [List.nil_append, ← rules_ofDeclarations] at hrecords
  have hcount := hrecords.numNonterminals_finish
  rw [nonterminals_ofDeclarations] at hcount
  rw [build_of_numbered (by rw [start_ofDeclarations, hstart])
    (by rw [rules_ofDeclarations, hfold]), hcount, if_pos hmany]

/-- A rule reported as repeated has the form and the names of an earlier rule, or the rules up to
it name more nonterminals than there are numbers beside that of an absent child.  Finite rules
without a repetition that name too many nonterminals are reported as that, or, when already the
start symbol and the rules name more than there are numbers, possibly as a repetition.

Among fewer calls than there are word numbers, the rule that comes after those taken up is
refused as a repetition exactly when its kept numbers are there already. -/
theorem repetition_of_build (calls : List Declaration) :
    (∀ label, (Draft.ofDeclarations calls).build = .error (.duplicate label) →
      ∃ start done rule rest, Declaration.lastStart? calls = some start ∧
        Declaration.rules calls = done ++ rule :: rest ∧ rule.label = label ∧
        ((∃ r ∈ done, r.key = rule.key ∧ r.label = label) ∨
          noChild < (named start (done ++ [rule])).card)) ∧
    (∀ start, Declaration.lastStart? calls = some start →
      (∀ r ∈ Declaration.rules calls, r.logprob.isFinite = true) →
      (Declaration.rules calls).Pairwise (fun r r' => r.key ≠ r'.key) →
      noChild ≤ (Declaration.nonterminals calls start).card →
      (Draft.ofDeclarations calls).build =
          .error (.tooManyNonterminals (Declaration.nonterminals calls start).card) ∨
        noChild < (named start (Declaration.rules calls)).card ∧
          ∃ label, (Draft.ofDeclarations calls).build = .error (.duplicate label)) ∧
    (calls.length < noWord → ∀ start done rule rest s,
      Declaration.rules calls = done ++ rule :: rest →
      done.foldlM Numbering.add (Numbering.init start) = .ok s →
      (s.add rule = .error (.duplicate rule.label) ↔ rule.logprob.isFinite = true ∧
        ∃ p ∈ s.productions,
          p.kept = (Numbering.symbols s.nonterminals s.words rule).1.kept)) := by
  refine ⟨?_, ?_, ?_⟩
  · intro label hbuild
    obtain ⟨start, hstart, hfold⟩ := Draft.foldlM_of_duplicate hbuild
    rw [Draft.start_ofDeclarations] at hstart
    rw [Draft.rules_ofDeclarations] at hfold
    obtain ⟨done, rule, rest, hrules, hlabel, hwhy⟩ := Numbering.repetition_of_foldlM hfold
    refine ⟨start, done, rule, rest, hstart, hrules, hlabel, hwhy.imp_left ?_⟩
    rintro ⟨r, hr, hkey⟩
    exact ⟨r, hr, hkey, (Rule.label_eq_of_key_eq hkey).trans hlabel⟩
  · intro start hstart hfinite hdistinct hmany
    cases hfold : (Declaration.rules calls).foldlM Numbering.add (Numbering.init start) with
    | ok s => exact Or.inl (Draft.tooMany_of_numbered hstart hfold hmany)
    | error e =>
        -- No rule is infinite, so this is a repetition, and no key comes twice.
        obtain ⟨label, rfl⟩ := Numbering.exists_duplicate_of_foldlM hfinite hfold
        obtain ⟨done, rule, rest, hrules, -, hwhy⟩ := Numbering.repetition_of_foldlM hfold
        refine Or.inr ⟨?_, label, Draft.build_of_rejected (by rw [Draft.start_ofDeclarations, hstart])
          (by rw [Draft.rules_ofDeclarations, hfold])⟩
        rw [hrules] at hdistinct ⊢
        obtain ⟨r, hr, hkey⟩ | hcrowded := hwhy
        · exact absurd hkey ((List.pairwise_append.1 hdistinct).2.2 r hr rule List.mem_cons_self)
        · refine Nat.lt_of_lt_of_le hcrowded (Finset.card_le_card (Numbering.named_subset ?_))
          intro r hr
          rw [List.append_cons]
          exact List.mem_append_left _ hr
  · intro hshort start done rule rest s hrules hfold
    have hrecords := (Numbering.records_init start).foldlM _ (Numbering.sound_init start) hfold
    rw [List.nil_append] at hrecords
    refine hrecords.add_eq_duplicate_iff (Numbering.sound_foldlM _ (Numbering.sound_init start) hfold)
      ?_
    have hlength := Declaration.length_rules_le calls
    rw [hrules, List.length_append, List.length_cons] at hlength
    omega

/-- Calls with a rule whose form and names come twice, with different weights. -/
def repeatingCalls : List Declaration :=
  [.start "S", .rule (.lexical "S" "a" .negZero), .rule (.unary "S" "a" .negZero),
    .rule (.lexical "S" "a" (.ofWholeUnits (-1)))]

theorem repetition_of_build_repeating :
    (Draft.ofDeclarations repeatingCalls).build = .error (.duplicate "S -> a") ∧
      ∃ start done rule rest, Declaration.lastStart? repeatingCalls = some start ∧
        Declaration.rules repeatingCalls = done ++ rule :: rest ∧ rule.label = "S -> a" ∧
        ((∃ r ∈ done, r.key = rule.key ∧ r.label = "S -> a") ∨
          noChild < (named start (done ++ [rule])).card) := by
  have hbuild : (Draft.ofDeclarations repeatingCalls).build = .error (.duplicate "S -> a") := by
    rfl
  exact ⟨hbuild, (repetition_of_build repeatingCalls).1 _ hbuild⟩

/-! ## More names than numbers -/

namespace Crowd

/-- A nonterminal of the crowd. -/
def name (i : Nat) : String := "N" ++ toString (i + 1)

/-- Lexical rules of so many nonterminals. -/
def lexicon (n : Nat) : List Rule := (List.range n).map fun i => .lexical (name i) "w" .negZero

/-- A unary rule over the first nonterminal of the crowd, and the rules of all of them. -/
def rules (n : Nat) : List Rule := .unary "S" "N1" .negZero :: lexicon n

/-- A binary rule over the same nonterminal and one more. -/
def last : Rule := .binary "S" "N1" "X" .negZero

/-- The calls that declare all these rules. -/
def calls (n : Nat) : List Declaration := .start "S" :: (rules n ++ [last]).map .rule

theorem name_injective : Function.Injective name := by
  intro i j h
  have hdigits : Nat.toDigits 10 (i + 1) = Nat.toDigits 10 (j + 1) := by
    have hchars := congrArg String.toList h
    simpa [name, toString, Nat.repr] using hchars
  have hvalue := congrArg (Nat.ofDigitChars 10 · 0) hdigits
  simp only [Nat.ofDigitChars_ten_toDigits] at hvalue
  exact Nat.succ.inj hvalue

theorem name_ne_of_head {other : String} (h : other.toList.head? ≠ some 'N') (i : Nat) :
    name i ≠ other := by
  rintro rfl
  exact h (by simp [name])

theorem rules_calls (n : Nat) : Declaration.rules (calls n) = rules n ++ [last] := by
  rw [calls, Declaration.rules, List.filterMap_cons_none rfl, List.filterMap_map]
  exact List.filterMap_some

theorem finite_rules (n : Nat) : ∀ r ∈ rules n, r.logprob.isFinite = true := by
  intro r hr
  obtain rfl | hr := List.mem_cons.1 hr
  · rfl
  · obtain ⟨i, -, rfl⟩ := List.mem_map.1 hr
    rfl

theorem distinct_rules (n : Nat) :
    (rules n ++ [last]).Pairwise fun r r' => r.key ≠ r'.key := by
  have hlexicon : (lexicon n).Pairwise fun r r' => r.key ≠ r'.key := by
    refine List.pairwise_map.2 (List.nodup_range.imp fun {i j} hne hkey => hne ?_)
    simp only [Rule.key, Prod.mk.injEq] at hkey
    exact name_injective hkey.2.1
  have hkind : ∀ r ∈ lexicon n, r.kind = .lexical := by
    intro r hr
    obtain ⟨i, -, rfl⟩ := List.mem_map.1 hr
    rfl
  rw [List.pairwise_append, rules, List.pairwise_cons]
  refine ⟨⟨fun r hr hkey => ?_, hlexicon⟩, List.pairwise_singleton _ _, fun r hr r' hr' hkey => ?_⟩
  · cases (congrArg Prod.fst hkey).trans (hkind r hr)
  · rw [List.mem_singleton.1 hr'] at hkey
    obtain rfl | hr := List.mem_cons.1 hr
    · cases congrArg Prod.fst hkey
    · cases (hkind r hr).symm.trans (congrArg Prod.fst hkey)

theorem named_rules {n : Nat} (hn : 0 < n) :
    named "S" (rules n) = insert "S" ((Finset.range n).image name) := by
  ext other
  rw [Numbering.mem_named, Finset.mem_insert, Finset.mem_image]
  constructor
  · rintro (rfl | ⟨r, hr, hname⟩)
    · exact Or.inl rfl
    · obtain rfl | hr := List.mem_cons.1 hr
      · obtain rfl | hname := List.mem_cons.1 hname
        · exact Or.inl rfl
        · exact Or.inr ⟨0, Finset.mem_range.2 hn, (List.mem_singleton.1 hname).symm⟩
      · obtain ⟨i, hi, rfl⟩ := List.mem_map.1 hr
        exact Or.inr ⟨i, Finset.mem_range.2 (List.mem_range.1 hi), (List.mem_singleton.1 hname).symm⟩
  · rintro (rfl | ⟨i, hi, rfl⟩)
    · exact Or.inl rfl
    · have hi := List.mem_range.2 (Finset.mem_range.1 hi)
      exact Or.inr ⟨_, List.mem_cons_of_mem _ (List.mem_map_of_mem hi), List.mem_singleton_self _⟩

theorem card_named_rules {n : Nat} (hn : 0 < n) : (named "S" (rules n)).card = n + 1 := by
  have hstart : "S" ∉ (Finset.range n).image name := by
    rw [Finset.mem_image]
    rintro ⟨i, -, hi⟩
    exact name_ne_of_head (by decide) i hi
  rw [named_rules hn, Finset.card_insert_of_notMem hstart,
    Finset.card_image_of_injective _ name_injective, Finset.card_range]

theorem lastStart?_calls (n : Nat) : Declaration.lastStart? (calls n) = some "S" := by
  have hrest : ((rules n ++ [last]).map Declaration.rule).filterMap Declaration.start? = [] := by
    rw [List.filterMap_map, List.filterMap_eq_nil_iff]
    exact fun r _ => rfl
  simp only [calls, Declaration.lastStart?, List.filterMap_cons, Declaration.start?, hrest]
  rfl

/-- With all but one of the numbers given out, the last rule is refused as a repetition. -/
theorem build_calls {n : Nat} (hn : n + 1 = noChild) :
    (Draft.ofDeclarations (calls n)).build = .error (.duplicate last.label) := by
  have hpos : 0 < n := by
    have : noChild = 65535 := rfl
    omega
  have hcard : (named "S" (rules n)).card = noChild := (card_named_rules hpos).trans hn
  obtain ⟨s, hfold⟩ := (Numbering.records_init "S").exists_foldlM (Nat.le_of_eq hcard) (rules n)
    (Numbering.sound_init "S") (finite_rules n) (List.pairwise_append.1 (distinct_rules n)).1
    (Numbering.mem_named.2 (Or.inl rfl))
    (fun r hr _ hname => Numbering.mem_named.2 (Or.inr ⟨r, hr, hname⟩))
  have hsound := Numbering.sound_foldlM _ (Numbering.sound_init "S") hfold
  have hrecords := (Numbering.records_init "S").foldlM _ (Numbering.sound_init "S") hfold
  rw [List.nil_append] at hrecords
  have hnew : "X" ∉ s.nonterminals.names := by
    rw [hrecords.nonterminals, ← Numbering.mem_named, named_rules hpos, Finset.mem_insert,
      Finset.mem_image]
    rintro (hstart | ⟨i, -, hi⟩)
    · exact absurd hstart (by decide)
    · exact name_ne_of_head (by decide) i hi
  have hadd : s.add last = .error (.duplicate last.label) :=
    hrecords.add_absent hsound List.mem_cons_self hnew (hrecords.size_eq.trans hcard) rfl
  refine Draft.build_of_rejected (by rw [Draft.start_ofDeclarations, lastStart?_calls]) ?_
  rw [Draft.rules_ofDeclarations, rules_calls, List.foldlM_append, hfold]
  change List.foldlM Numbering.add s [last] = _
  rw [List.foldlM_cons, hadd]
  rfl

end Crowd

/-- Rules without a repetition that name too many nonterminals, and are refused as a repetition. -/
theorem apart_reported_twice :
    Declaration.lastStart? (Crowd.calls 65534) = some "S" ∧
    (∀ r ∈ Declaration.rules (Crowd.calls 65534), r.logprob.isFinite = true) ∧
    (Declaration.rules (Crowd.calls 65534)).Pairwise (fun r r' => r.key ≠ r'.key) ∧
    noChild ≤ (Declaration.nonterminals (Crowd.calls 65534) "S").card ∧
    (Draft.ofDeclarations (Crowd.calls 65534)).build = .error (.duplicate "S -> N1 X") := by
  have hcard : (named "S" (Crowd.rules 65534)).card = noChild := Crowd.card_named_rules (by decide)
  have hlabel : Crowd.last.label = "S -> N1 X" := by decide
  refine ⟨Crowd.lastStart?_calls _, ?_, ?_, ?_, hlabel ▸ Crowd.build_calls rfl⟩
  · rw [Crowd.rules_calls]
    intro r hr
    obtain hr | hr := List.mem_append.1 hr
    · exact Crowd.finite_rules _ r hr
    · rw [List.mem_singleton.1 hr]
      rfl
  · rw [Crowd.rules_calls]
    exact Crowd.distinct_rules _
  · rw [← hcard]
    refine Finset.card_le_card (Finset.Subset.trans (Numbering.named_subset fun r hr => ?_)
      (Declaration.named_subset_nonterminals _ _))
    rw [Crowd.rules_calls]
    exact List.mem_append_left _ hr

end BestParse
