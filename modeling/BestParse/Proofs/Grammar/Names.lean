import Mathlib.Data.Finset.Card
import BestParse.Proofs.Grammar.WellFormed

/-!
# Grammars by name

A grammar numbers its symbols, its text and its users name them.  `Grammar.rules` is the list of
its productions with their symbols by name, and `rules_of_build` says that these are the rules
of the draft, in their order.

`Draft.Admissible` is what a draft must satisfy, in terms of names alone, for a grammar to be
built (`Draft.Admissible.exists_build`, `admissible_of_build`).  The numbering is followed by
`Numbering.Records`: the productions so far are the rules so far, and the tables hold the names
that occur in them and no others.  A rule that repeats none of these is accepted while its
numbers fit into sixteen bits, since signatures tell productions apart only there
(`Production.eq_of_signature_eq`).
-/

namespace BestParse

/-! ## Rules -/

namespace Rule

/-- The nonterminal a rule expands. -/
def parent : Rule → String
  | .binary p _ _ _ => p
  | .unary p _ _ => p
  | .lexical p _ _ => p

/-- The log-probability of a rule. -/
def logprob : Rule → Score
  | .binary _ _ _ logprob => logprob
  | .unary _ _ logprob => logprob
  | .lexical _ _ logprob => logprob

/-- The form of a rule. -/
def kind : Rule → Kind
  | .binary _ _ _ _ => .binary
  | .unary _ _ _ => .unary
  | .lexical _ _ _ => .lexical

/-- The symbols on the right of a rule. -/
def right : Rule → List String
  | .binary _ l r _ => [l, r]
  | .unary _ c _ => [c]
  | .lexical _ w _ => [w]

/-- The nonterminals of a rule. -/
def nonterminals : Rule → List String
  | .binary p l r _ => [p, l, r]
  | .unary p c _ => [p, c]
  | .lexical p _ _ => [p]

/-- The words of a rule. -/
def words : Rule → List String
  | .lexical _ w _ => [w]
  | _ => []

/-- What tells rules apart: all but the log-probability. -/
def key (r : Rule) : Kind × String × List String := (r.kind, r.parent, r.right)

theorem mem_symbols {r : Rule} {name : String} :
    name ∈ r.parent :: r.right ↔ name ∈ r.nonterminals ∨ name ∈ r.words := by
  cases r with
  | binary p l r logprob => simp [parent, right, nonterminals, words]
  | unary p c logprob => simp [parent, right, nonterminals, words]
  | lexical p w logprob => simp [parent, right, nonterminals, words]

end Rule

/-- A production with the names of its symbols. -/
def Production.rule (nonterminals words : SymbolTable) (p : Production) : Rule :=
  match p.expansion with
  | .binary l r =>
    .binary (nonterminals.name p.parent) (nonterminals.name l) (nonterminals.name r) p.logprob
  | .unary c => .unary (nonterminals.name p.parent) (nonterminals.name c) p.logprob
  | .lexical w => .lexical (nonterminals.name p.parent) (words.name w) p.logprob

namespace Grammar

/-- A production of a grammar with the names of its symbols. -/
def rule (g : Grammar) (id : ProductionId) : Rule := (g.production id).rule g.nonterminals g.words

/-- The productions of a grammar by name, in their order. -/
def rules (g : Grammar) : List Rule := (List.range g.numProductions).map g.rule

theorem rules_eq_map (g : Grammar) :
    g.rules = g.productions.toList.map (·.rule g.nonterminals g.words) := by
  refine List.ext_getElem (by simp [rules, numProductions]) fun i hi hi' => ?_
  rw [List.length_map, Array.length_toList] at hi'
  simp [rules, rule, production, Array.getD_eq_getD_getElem?, hi']

end Grammar

/-! ## Symbol tables -/

namespace SymbolTable

variable {t t' t'' : SymbolTable}

/-- Later tables have the names of earlier ones under the same numbers. -/
def Extends (t t' : SymbolTable) : Prop := t.names.toList <+: t'.names.toList

theorem Extends.refl (t : SymbolTable) : t.Extends t := List.prefix_rfl

theorem Extends.trans (h : t.Extends t') (h' : t'.Extends t'') : t.Extends t'' :=
  List.IsPrefix.trans h h'

theorem getElem?_names {i : Nat} (hi : i < t.size) : t.names[i]? = some (t.name i) := by
  have hlt : i < t.names.size := hi
  simp [name, Array.getD_eq_getD_getElem?, hlt]

theorem name_eq_of_getElem? {i : Nat} {name : String} (h : t.names[i]? = some name) :
    t.name i = name := by
  rw [SymbolTable.name, Array.getD_eq_getD_getElem?, h, Option.getD_some]

theorem Extends.name_eq (h : t.Extends t') {i : Nat} (hi : i < t.size) : t'.name i = t.name i := by
  obtain ⟨more, hmore⟩ := h
  refine name_eq_of_getElem? ?_
  rw [← Array.getElem?_toList, ← hmore, List.getElem?_append_left hi, Array.getElem?_toList,
    getElem?_names hi]

theorem extends_intern (t : SymbolTable) (name : String) : t.Extends (t.intern name).2 := by
  unfold intern
  split
  · exact Extends.refl t
  · exact ⟨[name], by simp [append]⟩

theorem mem_names_intern {name other : String} :
    other ∈ (t.intern name).2.names ↔ other ∈ t.names ∨ other = name := by
  unfold intern
  split
  · next i h =>
    refine ⟨Or.inl, fun hmem => hmem.elim id ?_⟩
    rintro rfl
    exact Array.mem_of_getElem? ((t.find_eq _ i).1 h)
  · simp [append]

theorem name_intern_fst (t : SymbolTable) (name : String) :
    (t.intern name).2.name (t.intern name).1 = name :=
  name_eq_of_getElem? (find?_eq_some_iff.1 (find?_intern t name))

theorem name_mem {i : Nat} (hi : i < t.size) : t.name i ∈ t.names :=
  Array.mem_of_getElem? (getElem?_names hi)

/-- Numbers and names correspond one to one. -/
theorem eq_of_name_eq {i j : Nat} (hi : i < t.size) (hj : j < t.size)
    (h : t.name i = t.name j) : i = j := by
  have hfind : ∀ k, k < t.size → t.find? (t.name k) = some k := fun k hk =>
    find?_eq_some_iff.2 (getElem?_names hk)
  exact Option.some.inj ((hfind i hi).symm.trans (h ▸ hfind j hj))

/-- A table has as many numbers as it has names. -/
theorem size_eq_card (t : SymbolTable) : t.size = t.names.toList.toFinset.card := by
  refine (List.toFinset_card_of_nodup (List.pairwise_iff_getElem.2 ?_)).symm
  intro i j hi hj hlt heq
  have hname : ∀ k (hk : k < t.names.toList.length), t.name k = t.names.toList[k] := fun k hk =>
    name_eq_of_getElem? (by rw [← Array.getElem?_toList, List.getElem?_eq_getElem hk])
  rw [← hname i hi, ← hname j hj] at heq
  exact Nat.ne_of_lt hlt (eq_of_name_eq hi hj heq)

/-- A table has no more numbers than there are names to be had. -/
theorem size_le_card {names : Finset String} (h : ∀ name ∈ t.names, name ∈ names) :
    t.size ≤ names.card := by
  rw [size_eq_card]
  exact Finset.card_le_card fun name hname => h name (by simpa using hname)

theorem mem_names_foldl_intern {other : String} : ∀ (names : List String) {t : SymbolTable},
    other ∈ (names.foldl (fun t name => (t.intern name).2) t).names ↔
      other ∈ t.names ∨ other ∈ names
  | [], t => by simp
  | name :: names, t => by
      rw [List.foldl_cons, mem_names_foldl_intern names, mem_names_intern, List.mem_cons, or_assoc]

theorem extends_foldl_intern : ∀ (names : List String) (t : SymbolTable),
    t.Extends (names.foldl (fun t name => (t.intern name).2) t)
  | [], t => Extends.refl t
  | name :: names, t => (t.extends_intern name).trans (extends_foldl_intern names _)

end SymbolTable

/-! ## Productions -/

namespace Expansion

theorem Scoped.left_lt {n w : Nat} {e : Expansion} (h : e.Scoped n w) {nt : NonTerminal}
    (hnt : nt ∈ e.left?) : nt < n := by
  cases e with
  | binary l r => cases hnt; exact h.1
  | unary c => cases hnt; exact h
  | lexical v => cases hnt

theorem Scoped.word_lt {n w : Nat} {e : Expansion} (h : e.Scoped n w) {v : WordId}
    (hv : v ∈ e.word?) : v < w := by
  cases e with
  | binary l r => cases hv
  | unary c => cases hv
  | lexical v' => cases hv; exact h

theorem Scoped.right_lt {n w : Nat} {e : Expansion} (h : e.Scoped n w) {nt : NonTerminal}
    (hnt : nt ∈ e.right?) : nt < n := by
  cases e with
  | binary l r => cases hnt; exact h.2
  | unary c => cases hnt
  | lexical v => cases hnt

/-- The children and the word make up an expansion. -/
theorem eq_of_parts_eq {e e' : Expansion} (hleft : e.left? = e'.left?)
    (hright : e.right? = e'.right?) (hword : e.word? = e'.word?) : e = e' := by
  cases e <;> cases e' <;> simp_all [left?, right?, word?]

end Expansion

namespace Production

variable {nts words nts' words' : SymbolTable} {p p' : Production}

theorem logprob_rule (p : Production) : (p.rule nts words).logprob = p.logprob := by
  unfold rule
  cases p.expansion with
  | binary l r => rfl
  | unary c => rfl
  | lexical w => rfl

theorem parent_rule (p : Production) : (p.rule nts words).parent = nts.name p.parent := by
  unfold rule
  cases p.expansion with
  | binary l r => rfl
  | unary c => rfl
  | lexical w => rfl

theorem kind_rule (p : Production) : (p.rule nts words).kind = p.expansion.kind := by
  unfold rule
  cases p.expansion with
  | binary l r => rfl
  | unary c => rfl
  | lexical w => rfl

/-- Longer tables give numbered symbols the same names. -/
theorem rule_eq_of_extends (hparent : p.parent < nts.size)
    (hscoped : p.expansion.Scoped nts.size words.size) (hnts : nts.Extends nts')
    (hwords : words.Extends words') : p.rule nts' words' = p.rule nts words := by
  unfold rule
  rw [hnts.name_eq hparent]
  cases hexp : p.expansion with
  | binary l r =>
      rw [hexp] at hscoped
      dsimp only
      rw [hnts.name_eq hscoped.1, hnts.name_eq hscoped.2]
  | unary c =>
      rw [hexp] at hscoped
      dsimp only
      rw [hnts.name_eq hscoped]
  | lexical w =>
      rw [hexp] at hscoped
      dsimp only
      rw [hwords.name_eq hscoped]

/-- Productions are told apart by the names of their symbols. -/
theorem key_rule_eq_iff (hparent : p.parent < nts.size) (hparent' : p'.parent < nts.size)
    (hscoped : p.expansion.Scoped nts.size words.size)
    (hscoped' : p'.expansion.Scoped nts.size words.size) :
    (p.rule nts words).key = (p'.rule nts words).key ↔
      p.parent = p'.parent ∧ p.expansion = p'.expansion := by
  constructor
  · intro hkey
    rw [Rule.key, Rule.key, parent_rule, parent_rule, Prod.mk.injEq, Prod.mk.injEq] at hkey
    obtain ⟨hkind, hname, hright⟩ := hkey
    refine ⟨SymbolTable.eq_of_name_eq hparent hparent' hname, ?_⟩
    unfold rule at hkind hright
    cases hexp : p.expansion with
    | binary l r =>
        cases hexp' : p'.expansion with
        | binary l' r' =>
            rw [hexp] at hscoped hright
            rw [hexp'] at hscoped' hright
            simp only [Rule.right, List.cons.injEq, and_true] at hright
            rw [SymbolTable.eq_of_name_eq hscoped.1 hscoped'.1 hright.1,
              SymbolTable.eq_of_name_eq hscoped.2 hscoped'.2 hright.2]
        | unary c' => simp [hexp, hexp', Rule.kind] at hkind
        | lexical w' => simp [hexp, hexp', Rule.kind] at hkind
    | unary c =>
        cases hexp' : p'.expansion with
        | binary l' r' => simp [hexp, hexp', Rule.kind] at hkind
        | unary c' =>
            rw [hexp] at hscoped hright
            rw [hexp'] at hscoped' hright
            simp only [Rule.right, List.cons.injEq, and_true] at hright
            rw [SymbolTable.eq_of_name_eq hscoped hscoped' hright]
        | lexical w' => simp [hexp, hexp', Rule.kind] at hkind
    | lexical w =>
        cases hexp' : p'.expansion with
        | binary l' r' => simp [hexp, hexp', Rule.kind] at hkind
        | unary c' => simp [hexp, hexp', Rule.kind] at hkind
        | lexical w' =>
            rw [hexp] at hscoped hright
            rw [hexp'] at hscoped' hright
            simp only [Rule.right, List.cons.injEq, and_true] at hright
            rw [SymbolTable.eq_of_name_eq hscoped hscoped' hright]
  · rintro ⟨hparent, hexp⟩
    simp only [rule, hparent, hexp]
    cases p'.expansion with
    | binary l r => rfl
    | unary c => rfl
    | lexical w => rfl

theorem signature_congr (hparent : p.parent = p'.parent) (hexp : p.expansion = p'.expansion) :
    p.signature = p'.signature := by
  simp only [signature, hparent, hexp]

/-- Below the number for an absent symbol, which is the greatest, none is cut. -/
theorem cut_inj (absent : Nat) {a b : Option Nat} (ha : ∀ n ∈ a, n < absent)
    (hb : ∀ n ∈ b, n < absent)
    (h : a.getD absent % (absent + 1) = b.getD absent % (absent + 1)) : a = b := by
  have hkept : ∀ c : Option Nat, (∀ n ∈ c, n < absent) →
      c.getD absent % (absent + 1) = c.getD absent := by
    intro c hc
    refine Nat.mod_eq_of_lt ?_
    cases c with
    | none => exact Nat.lt_succ_self absent
    | some n => exact Nat.lt_succ_of_lt (hc n rfl)
  rw [hkept a ha, hkept b hb] at h
  cases a with
  | none =>
      cases b with
      | none => rfl
      | some n => exact absurd h.symm (Nat.ne_of_lt (hb n rfl))
  | some n =>
      cases b with
      | none => exact absurd h (Nat.ne_of_lt (ha n rfl))
      | some n' => exact congrArg some h

/-- Signatures tell words apart, and a word from none. -/
theorem word_eq_of_elim_eq {a b : Option WordId} (h : a.elim 0 (· + 1) = b.elim 0 (· + 1)) :
    a = b := by
  cases a <;> cases b <;> simp_all

/-- In sixteen bits, with one number left for absent children, signatures tell productions
apart. -/
theorem eq_of_signature_eq {n w : Nat} (hn : n ≤ noChild) (hparent : p.parent < n)
    (hparent' : p'.parent < n) (hscoped : p.expansion.Scoped n w)
    (hscoped' : p'.expansion.Scoped n w) (h : p.signature = p'.signature) :
    p.parent = p'.parent ∧ p.expansion = p'.expansion := by
  simp only [signature, Prod.mk.injEq] at h
  obtain ⟨⟨hparents, hleft⟩, hright, hword⟩ := h
  have hbound : ∀ {nt : NonTerminal}, nt < n → nt < noChild := fun hnt =>
    Nat.lt_of_lt_of_le hnt hn
  constructor
  · refine Option.some.inj (cut_inj noChild ?_ ?_ hparents)
    · rintro nt ⟨⟩
      exact hbound hparent
    · rintro nt ⟨⟩
      exact hbound hparent'
  · refine Expansion.eq_of_parts_eq
      (cut_inj noChild (fun nt hnt => hbound (hscoped.left_lt hnt))
        (fun nt hnt => hbound (hscoped'.left_lt hnt)) hleft)
      (cut_inj noChild (fun nt hnt => hbound (hscoped.right_lt hnt))
        (fun nt hnt => hbound (hscoped'.right_lt hnt)) hright) (word_eq_of_elim_eq hword)

end Production

/-! ## Numbering -/

namespace Numbering

/-- The symbols of a rule get numbers whose names they are. -/
theorem rule_symbols (nts words : SymbolTable) (rule : Rule) :
    (symbols nts words rule).1.rule (symbols nts words rule).2.1 (symbols nts words rule).2.2 =
      rule := by
  cases rule with
  | binary p l r logprob =>
      have hp := (nts.intern p).2.extends_intern l
      have hl := ((nts.intern p).2.intern l).2.extends_intern r
      simp only [symbols, Production.rule]
      rw [(hp.trans hl).name_eq (nts.intern_fst_lt p),
        hl.name_eq ((nts.intern p).2.intern_fst_lt l),
        SymbolTable.name_intern_fst, SymbolTable.name_intern_fst, SymbolTable.name_intern_fst]
  | unary p c logprob =>
      have hp := (nts.intern p).2.extends_intern c
      simp only [symbols, Production.rule]
      rw [hp.name_eq (nts.intern_fst_lt p), SymbolTable.name_intern_fst,
        SymbolTable.name_intern_fst]
  | lexical p w logprob =>
      simp only [symbols, Production.rule, SymbolTable.name_intern_fst]

theorem extends_symbols (nts words : SymbolTable) (rule : Rule) :
    nts.Extends (symbols nts words rule).2.1 ∧ words.Extends (symbols nts words rule).2.2 := by
  cases rule with
  | binary p l r logprob =>
      exact ⟨((nts.extends_intern p).trans (SymbolTable.extends_intern _ l)).trans
        (SymbolTable.extends_intern _ r), .refl words⟩
  | unary p c logprob =>
      exact ⟨(nts.extends_intern p).trans (SymbolTable.extends_intern _ c), .refl words⟩
  | lexical p w logprob => exact ⟨nts.extends_intern p, words.extends_intern w⟩

/-- The tables get the names of a rule and no others. -/
theorem mem_names_symbols {nts words : SymbolTable} {rule : Rule} {name : String} :
    (name ∈ (symbols nts words rule).2.1.names ↔ name ∈ nts.names ∨ name ∈ rule.nonterminals) ∧
      (name ∈ (symbols nts words rule).2.2.names ↔ name ∈ words.names ∨ name ∈ rule.words) := by
  cases rule with
  | binary p l r logprob =>
      simp [symbols, SymbolTable.mem_names_intern, Rule.nonterminals, Rule.words, or_assoc]
  | unary p c logprob =>
      simp [symbols, SymbolTable.mem_names_intern, Rule.nonterminals, Rule.words, or_assoc]
  | lexical p w logprob =>
      simp [symbols, SymbolTable.mem_names_intern, Rule.nonterminals, Rule.words]

theorem logprob_symbols (nts words : SymbolTable) (rule : Rule) :
    (symbols nts words rule).1.logprob = rule.logprob := by
  rw [← Production.logprob_rule, rule_symbols]

/-- The productions numbered so far are the rules so far, and the tables hold the names of the
start symbol and of these rules. -/
structure Records (start : String) (rules : List Rule) (s : Numbering) : Prop where
  first : s.nonterminals.name 0 = start
  rules_eq : s.productions.toList.map (·.rule s.nonterminals s.words) = rules
  nonterminals : ∀ name, name ∈ s.nonterminals.names ↔
    name = start ∨ ∃ r ∈ rules, name ∈ r.nonterminals
  words : ∀ name, name ∈ s.words.names ↔ ∃ r ∈ rules, name ∈ r.words
  seen : ∀ signature, s.seen.contains signature = true →
    ∃ p ∈ s.productions, p.signature = signature

theorem records_init (start : String) : Records start [] (init start) where
  first := rfl
  rules_eq := rfl
  nonterminals name := by simp [init, SymbolTable.mem_names_intern, SymbolTable.empty]
  words name := by simp [init, SymbolTable.empty]
  seen signature h := by simp [init] at h

theorem Records.add {start : String} {rules : List Rule} {rule : Rule} {s s' : Numbering}
    (h : Records start rules s) (hsound : s.Sound) (hadd : s.add rule = .ok s') :
    Records start (rules ++ [rule]) s' := by
  obtain ⟨hnts, hwords⟩ := extends_symbols s.nonterminals s.words rule
  obtain ⟨-, -, rfl⟩ := add_eq_ok_iff.1 hadd
  constructor
  · exact (hnts.name_eq hsound.nonempty).trans h.first
  · have hold : s.productions.toList.map (·.rule (symbols s.nonterminals s.words rule).2.1
        (symbols s.nonterminals s.words rule).2.2) = rules := by
      rw [← h.rules_eq]
      refine List.map_congr_left fun p hp => ?_
      have hp := Array.mem_toList_iff.1 hp
      exact Production.rule_eq_of_extends (hsound.parent_lt p hp) (hsound.children_scoped p hp)
        hnts hwords
    rw [Array.toList_push, List.map_append, hold, List.map_singleton, rule_symbols]
  · intro name
    rw [mem_names_symbols.1, h.nonterminals]
    simp [or_and_right, exists_or, or_assoc]
  · intro name
    rw [mem_names_symbols.2, h.words]
    simp [or_and_right, exists_or]
  · intro signature hseen
    rw [Std.TreeSet.contains_insert, Bool.or_eq_true] at hseen
    rcases hseen with heq | hseen
    · exact ⟨_, Array.mem_push_self, Std.LawfulEqCmp.compare_eq_iff_eq.1 (beq_iff_eq.1 heq)⟩
    · obtain ⟨p, hp, hsig⟩ := h.seen signature hseen
      exact ⟨p, Array.mem_push_of_mem _ hp, hsig⟩

theorem Records.foldlM {start : String} : ∀ (rules : List Rule) {done : List Rule}
    {s s' : Numbering}, Records start done s → s.Sound → rules.foldlM Numbering.add s = .ok s' →
    Records start (done ++ rules) s'
  | [], done, s, s', h, _, hfold => by
      cases hfold
      rwa [List.append_nil]
  | rule :: rules, done, s, s', h, hsound, hfold => by
      rw [List.foldlM_cons] at hfold
      cases hadd : s.add rule with
      | error e => rw [hadd] at hfold; cases hfold
      | ok next =>
          rw [hadd] at hfold
          have hrest := (h.add hsound hadd).foldlM rules (sound_add hsound hadd) hfold
          rwa [List.append_assoc, List.singleton_append] at hrest

/-- A rule whose signature was seen repeats an earlier one while the numbers fit. -/
theorem Records.exists_key_eq {start : String} {rules : List Rule} {rule : Rule} {s : Numbering}
    (h : Records start rules s) (hsound : s.Sound)
    (hseen : s.seen.contains (symbols s.nonterminals s.words rule).1.signature = true)
    (hsize : (symbols s.nonterminals s.words rule).2.1.size ≤ noChild) :
    ∃ r ∈ rules, r.key = rule.key := by
  obtain ⟨p, hp, hsig⟩ := h.seen _ hseen
  obtain ⟨hnts, hwords⟩ := extends_symbols s.nonterminals s.words rule
  obtain ⟨hparent, hscoped, hmore, hmore'⟩ := symbols_scoped s.nonterminals s.words rule
  have hp_parent := Nat.lt_of_lt_of_le (hsound.parent_lt p hp) hmore
  have hp_scoped := (hsound.children_scoped p hp).mono hmore hmore'
  have hsame := Production.eq_of_signature_eq hsize hp_parent hparent hp_scoped hscoped hsig
  refine ⟨p.rule s.nonterminals s.words, ?_, ?_⟩
  · rw [← h.rules_eq]
    exact List.mem_map_of_mem (Array.mem_toList_iff.2 hp)
  · calc (p.rule s.nonterminals s.words).key
        = (p.rule _ _).key := by
          rw [← Production.rule_eq_of_extends (hsound.parent_lt p hp)
            (hsound.children_scoped p hp) hnts hwords]
      _ = ((symbols s.nonterminals s.words rule).1.rule _ _).key :=
          (Production.key_rule_eq_iff hp_parent hparent hp_scoped hscoped).2 hsame
      _ = rule.key := by rw [rule_symbols]

/-- A rule that repeats no earlier one is taken up while the numbers fit. -/
theorem Records.exists_add {start : String} {rules : List Rule} {rule : Rule} {s : Numbering}
    (h : Records start rules s) (hsound : s.Sound) (hfinite : rule.logprob.isFinite = true)
    (hnew : ∀ r ∈ rules, r.key ≠ rule.key)
    (hsize : (symbols s.nonterminals s.words rule).2.1.size ≤ noChild) :
    ∃ s', s.add rule = .ok s' := by
  refine ⟨_, add_eq_ok_iff.2 ⟨by rwa [logprob_symbols], ?_, rfl⟩⟩
  refine eq_false_of_ne_true fun hseen => ?_
  obtain ⟨r, hr, hkey⟩ := h.exists_key_eq hsound hseen hsize
  exact hnew r hr hkey

/-- Finite rules without repetitions are all taken up when there are few enough names. -/
theorem Records.exists_foldlM {start : String} {names : Finset String}
    (hfew : names.card ≤ noChild) : ∀ (rules : List Rule) {done : List Rule} {s : Numbering},
    Records start done s → s.Sound → (∀ r ∈ rules, r.logprob.isFinite = true) →
    (done ++ rules).Pairwise (fun r r' => r.key ≠ r'.key) → start ∈ names →
    (∀ r ∈ done ++ rules, ∀ name ∈ r.nonterminals, name ∈ names) →
    ∃ s', rules.foldlM Numbering.add s = .ok s'
  | [], done, s, _, _, _, _, _, _ => ⟨s, rfl⟩
  | rule :: rules, done, s, h, hsound, hfinite, hdistinct, hstart, hnames => by
      have hsize : (symbols s.nonterminals s.words rule).2.1.size ≤ noChild := by
        refine Nat.le_trans (SymbolTable.size_le_card fun name hname => ?_) hfew
        rcases mem_names_symbols.1.1 hname with hname | hname
        · rcases (h.nonterminals name).1 hname with rfl | ⟨r, hr, hname⟩
          · exact hstart
          · exact hnames r (List.mem_append_left _ hr) name hname
        · exact hnames rule (by simp) name hname
      have hnew : ∀ r ∈ done, r.key ≠ rule.key := fun r hr =>
        (List.pairwise_append.1 hdistinct).2.2 r hr rule List.mem_cons_self
      obtain ⟨next, hadd⟩ := h.exists_add hsound (hfinite rule List.mem_cons_self) hnew hsize
      rw [List.append_cons] at hdistinct hnames
      obtain ⟨s', hfold⟩ := exists_foldlM hfew rules (h.add hsound hadd) (sound_add hsound hadd)
        (fun r hr => hfinite r (List.mem_cons_of_mem _ hr)) hdistinct hstart hnames
      exact ⟨s', by rw [List.foldlM_cons, hadd]; exact hfold⟩

/-- A production has the start symbol's number when its rule has the start symbol's name. -/
theorem Records.exists_parent_iff {start : String} {rules : List Rule} {s : Numbering}
    (h : Records start rules s) (hsound : s.Sound) :
    (∃ p ∈ s.productions, p.parent = 0) ↔ ∃ r ∈ rules, r.parent = start := by
  rw [← h.rules_eq, ← h.first]
  constructor
  · rintro ⟨p, hp, hparent⟩
    refine ⟨_, List.mem_map_of_mem (Array.mem_toList_iff.2 hp), ?_⟩
    rw [Production.parent_rule, hparent]
  · rintro ⟨r, hr, hparent⟩
    obtain ⟨p, hp, rfl⟩ := List.mem_map.1 hr
    rw [Production.parent_rule] at hparent
    have hp := Array.mem_toList_iff.1 hp
    exact ⟨p, hp, SymbolTable.eq_of_name_eq (hsound.parent_lt p hp) hsound.nonempty hparent⟩

/-! ## The grammar of a numbering -/

theorem extends_finish (s : Numbering) (marked : Array String) :
    s.nonterminals.Extends (s.finish marked).nonterminals := by
  change s.nonterminals.Extends (marked.foldl (fun t name => (t.intern name).2) s.nonterminals)
  rw [← Array.foldl_toList]
  exact SymbolTable.extends_foldl_intern _ _

theorem mem_names_finish {s : Numbering} {marked : Array String} {name : String} :
    name ∈ (s.finish marked).nonterminals.names ↔ name ∈ s.nonterminals.names ∨ name ∈ marked := by
  change name ∈ (marked.foldl (fun t name => (t.intern name).2) s.nonterminals).names ↔ _
  rw [← Array.foldl_toList, SymbolTable.mem_names_foldl_intern, Array.mem_toList_iff]

theorem Records.rules_finish {start : String} {rules : List Rule} {s : Numbering}
    (h : Records start rules s) (hsound : s.Sound) (marked : Array String) :
    (s.finish marked).rules = rules := by
  rw [Grammar.rules_eq_map, ← h.rules_eq]
  refine List.map_congr_left fun p hp => ?_
  have hp : p ∈ s.productions := Array.mem_toList_iff.1 hp
  exact Production.rule_eq_of_extends (hsound.parent_lt p hp) (hsound.children_scoped p hp)
    (s.extends_finish marked) (.refl s.words)

theorem Records.start_finish {start : String} {rules : List Rule} {s : Numbering}
    (h : Records start rules s) (hsound : s.Sound) (marked : Array String) :
    (s.finish marked).nonterminalName (s.finish marked).start = start :=
  ((s.extends_finish marked).name_eq hsound.nonempty).trans h.first

end Numbering

/-! ## Drafts -/

/-- The nonterminals a draft names, with the start symbol given. -/
def Draft.nonterminals (d : Draft) (start : String) : Finset String :=
  (start :: (d.rules.toList.flatMap Rule.nonterminals ++ d.factored.toList)).toFinset

theorem Draft.mem_nonterminals {d : Draft} {start name : String} :
    name ∈ d.nonterminals start ↔
      (name = start ∨ ∃ r ∈ d.rules.toList, name ∈ r.nonterminals) ∨ name ∈ d.factored := by
  simp [Draft.nonterminals, or_assoc]

/-- What a draft must satisfy for a grammar to be built from it. -/
structure Draft.Admissible (d : Draft) (start : String) : Prop where
  start_eq : d.start = some start
  finite : ∀ r ∈ d.rules.toList, r.logprob.isFinite = true
  distinct : d.rules.toList.Pairwise fun r r' => r.key ≠ r'.key
  few : (d.nonterminals start).card < noChild
  used : ∃ r ∈ d.rules.toList, r.parent = start

/-- The numbers of a grammar are as many as the nonterminals named. -/
theorem Numbering.Records.numNonterminals_finish {d : Draft} {start : String} {s : Numbering}
    (h : Records start d.rules.toList s) :
    (s.finish d.factored).numNonterminals = (d.nonterminals start).card := by
  rw [Grammar.numNonterminals, SymbolTable.size_eq_card]
  congr 1
  ext name
  rw [List.mem_toFinset, Array.mem_toList_iff, mem_names_finish, h.nonterminals,
    Draft.mem_nonterminals]

/-- An admissible draft is built. -/
theorem Draft.Admissible.exists_build {d : Draft} {start : String} (h : d.Admissible start) :
    ∃ g, d.build = .ok g := by
  have hinit := Numbering.records_init start
  have hsound := Numbering.sound_init start
  obtain ⟨s, hfold⟩ := hinit.exists_foldlM (Nat.le_of_lt h.few) d.rules.toList hsound h.finite
    (by simpa using h.distinct) (mem_nonterminals.2 (Or.inl (Or.inl rfl)))
    (fun r hr name hname => mem_nonterminals.2 (Or.inl (Or.inr ⟨r, by simpa using hr, hname⟩)))
  have hrecords := hinit.foldlM _ hsound hfold
  rw [List.nil_append] at hrecords
  refine ⟨_, build_eq_ok_iff.2 ⟨start, s, h.start_eq, hfold, ?_, ?_, rfl⟩⟩
  · rw [hrecords.numNonterminals_finish]
    exact h.few
  · exact (hrecords.exists_parent_iff (Numbering.sound_foldlM _ hsound hfold)).2 h.used

/-- The order of the rules does not matter, and marks can be left out. -/
theorem Draft.Admissible.perm {d d' : Draft} {start : String} (h : d.Admissible start)
    (hstart : d'.start = some start) (hperm : d'.rules.toList.Perm d.rules.toList)
    (hmarks : ∀ name ∈ d'.factored, name ∈ d.factored) : d'.Admissible start := by
  constructor
  · exact hstart
  · exact fun r hr => h.finite r (hperm.mem_iff.1 hr)
  · exact (hperm.pairwise_iff fun hne => hne.symm).2 h.distinct
  · refine Nat.lt_of_le_of_lt (Finset.card_le_card fun name hname => ?_) h.few
    rw [mem_nonterminals] at hname ⊢
    exact hname.imp (Or.imp_right fun ⟨r, hr, hname⟩ => ⟨r, hperm.mem_iff.1 hr, hname⟩)
      (hmarks name)
  · obtain ⟨r, hr, hparent⟩ := h.used
    exact ⟨r, hperm.mem_iff.2 hr, hparent⟩

section Built

variable {d : Draft} {g : Grammar}

/-- The numbering a grammar was built from records its draft. -/
theorem exists_records_of_build (h : d.build = .ok g) : ∃ (start : String) (s : Numbering),
    d.start = some start ∧ s.Sound ∧ Numbering.Records start d.rules.toList s ∧
      g.numNonterminals < noChild ∧ (∃ p ∈ s.productions, p.parent = 0) ∧
      s.finish d.factored = g := by
  obtain ⟨start, s, hstart, hfold, hfew, hused, hg⟩ := Draft.build_eq_ok_iff.1 h
  have hrecords := (Numbering.records_init start).foldlM _ (Numbering.sound_init start) hfold
  rw [List.nil_append] at hrecords
  exact ⟨start, s, hstart, Numbering.sound_foldlM _ (Numbering.sound_init start) hfold, hrecords,
    hg ▸ hfew, hused, hg⟩

/-- The productions of a grammar are the rules of its draft. -/
theorem rules_of_build (h : d.build = .ok g) : g.rules = d.rules.toList := by
  obtain ⟨start, s, -, hsound, hrecords, -, -, rfl⟩ := exists_records_of_build h
  exact hrecords.rules_finish hsound _

/-- A grammar is built from admissible drafts only. -/
theorem admissible_of_build (h : d.build = .ok g) :
    d.Admissible (g.nonterminalName g.start) := by
  obtain ⟨start, s, hstart, hsound, hrecords, hfew, hused, rfl⟩ := exists_records_of_build h
  rw [hrecords.start_finish hsound]
  constructor
  · exact hstart
  · intro r hr
    rw [← hrecords.rules_eq] at hr
    obtain ⟨p, hp, rfl⟩ := List.mem_map.1 hr
    rw [Production.logprob_rule]
    exact hsound.finite p (Array.mem_toList_iff.1 hp)
  · rw [← hrecords.rules_eq, List.pairwise_map]
    refine hsound.distinct.imp_of_mem fun {p p'} hp hp' hne hkey => ?_
    have hp := Array.mem_toList_iff.1 hp
    have hp' := Array.mem_toList_iff.1 hp'
    obtain ⟨hparent, hexp⟩ := (Production.key_rule_eq_iff (hsound.parent_lt p hp)
      (hsound.parent_lt p' hp') (hsound.children_scoped p hp)
      (hsound.children_scoped p' hp')).1 hkey
    exact hne (Production.signature_congr hparent hexp)
  · rw [← hrecords.numNonterminals_finish]
    exact hfew
  · exact (hrecords.exists_parent_iff hsound).1 hused

/-- The nonterminals of a grammar are those its draft names. -/
theorem mem_nonterminals_of_build (h : d.build = .ok g) {name : String} :
    name ∈ g.nonterminals.names ↔ name ∈ d.nonterminals (g.nonterminalName g.start) := by
  obtain ⟨start, s, -, hsound, hrecords, -, -, rfl⟩ := exists_records_of_build h
  rw [hrecords.start_finish hsound, Numbering.mem_names_finish, hrecords.nonterminals,
    Draft.mem_nonterminals]

/-- The words of a grammar are those of the rules of its draft. -/
theorem mem_words_of_build (h : d.build = .ok g) {name : String} :
    name ∈ g.words.names ↔ ∃ r ∈ d.rules.toList, name ∈ r.words := by
  obtain ⟨start, s, -, hsound, hrecords, -, -, rfl⟩ := exists_records_of_build h
  exact hrecords.words name

end Built

end BestParse
