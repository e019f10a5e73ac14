import BestParse.Grammar.Written
import BestParse.Proofs.Grammar.Names
import BestParse.Proofs.Score.Decimal
import BestParse.Proofs.Text

/-!
# The written form read back

A grammar is written as its start symbol and the lines of its rules, and these are read as they
stand when every name is a field (`Grammar.HasPlainNames`): a name may look like an arrow, a
number or a piece of the separator, since each has its place on the line.

* `Grammar.text_toList`: the written form depends on the start symbol and the rules only.
* `Reading.readLines_written`: its lines are read as the draft of these rules, the lexical ones
  last.
* `Grammar.text_reads_back`: that draft is built, and its grammar has the same rules.

Names that were read are fields themselves (`Reading.Plain`), except that the line of the start
symbol may hold blanks.  Such a start symbol is the parent of no rule, so no grammar is built.
-/

namespace BestParse

/-! ## Lines -/

namespace Rule

/-- Whether a rule belongs into the lexicon. -/
def isLexical (r : Rule) : Bool := r.kind == .lexical

/-- The names of a rule are fields. -/
def HasPlainNames (r : Rule) : Prop := ∀ name ∈ r.parent :: r.right, Text.IsField name.toList

/-- The fields of the line of a rule. -/
def fields (r : Rule) : List (List Char) :=
  r.parent.toList :: ['-', '>'] :: (r.right.map String.toList ++ [r.logprob.chars])

/-- The line of a rule. -/
def line (r : Rule) : List Char := List.intercalate [' '] r.fields

/-- The log-probability of a rule is a field. -/
theorem isField_chars {s : Score} (h : s.isFinite = true) : Text.IsField s.chars := by
  obtain ⟨hne, hchars⟩ := Score.chars_of_isFinite h
  refine ⟨hne, fun c hc => ?_⟩
  rcases hchars c hc with hdigit | rfl | rfl
  · refine ⟨Text.isBlank_of_isDigit hdigit, ?_⟩
    rintro rfl
    exact absurd hdigit (by decide)
  · decide
  · decide

theorem isField_of_mem_fields {r : Rule} (hnames : r.HasPlainNames)
    (hfinite : r.logprob.isFinite = true) : ∀ f ∈ r.fields, Text.IsField f := by
  intro f hf
  rcases List.mem_cons.1 hf with rfl | hf
  · exact hnames r.parent List.mem_cons_self
  · rcases List.mem_cons.1 hf with rfl | hf
    · decide
    · rcases List.mem_append.1 hf with hf | hf
      · obtain ⟨name, hname, rfl⟩ := List.mem_map.1 hf
        exact hnames name (List.mem_cons_of_mem _ hname)
      · rw [List.mem_singleton.1 hf]
        exact isField_chars hfinite

end Rule

/-- The lines of a grammar's written form. -/
def writtenLines (start : String) (rules lexicon : List Rule) : List (List Char) :=
  start.toList :: (rules.map Rule.line ++ lexiconSeparator.toList :: lexicon.map Rule.line)

namespace Grammar

/-- The names of a grammar are fields. -/
def HasPlainNames (g : Grammar) : Prop :=
  (∀ name ∈ g.nonterminals.names, Text.IsField name.toList) ∧
    ∀ name ∈ g.words.names, Text.IsField name.toList

instance (g : Grammar) : Decidable g.HasPlainNames :=
  decidable_of_iff ((g.nonterminals.names.toList.all (Text.IsField ·.toList) &&
    g.words.names.toList.all (Text.IsField ·.toList)) = true)
    (by simp only [HasPlainNames, Bool.and_eq_true, List.all_eq_true, decide_eq_true_eq,
      Array.mem_toList_iff])

theorem productionLine_toList (g : Grammar) (id : ProductionId) :
    (g.productionLine id).toList = (g.rule id).line ++ ['\n'] := by
  unfold productionLine productionText rule Production.rule
  dsimp only
  cases (g.production id).expansion with
  | binary l r =>
      simp [Rule.line, Rule.fields, Rule.parent, Rule.right, Rule.logprob, Score.text,
        nonterminalName, List.intercalate, List.intersperse]
  | unary c =>
      simp [Rule.line, Rule.fields, Rule.parent, Rule.right, Rule.logprob, Score.text,
        nonterminalName, List.intercalate, List.intersperse]
  | lexical w =>
      simp [Rule.line, Rule.fields, Rule.parent, Rule.right, Rule.logprob, Score.text,
        nonterminalName, wordName, List.intercalate, List.intersperse]

/-- The written form depends on the start symbol and the rules. -/
theorem text_toList (g : Grammar) :
    g.text.toList = (writtenLines (g.nonterminalName g.start)
      ((g.productionIds false).map g.rule) ((g.productionIds true).map g.rule)).flatMap
        (· ++ ['\n']) := by
  have hjoin : ∀ ids : List ProductionId, (String.join (ids.map g.productionLine)).toList =
      ((ids.map g.rule).map Rule.line).flatMap (· ++ ['\n']) := by
    intro ids
    induction ids with
    | nil => rfl
    | cons id ids ih =>
        simp only [List.map_cons, List.flatMap_cons, String.join_cons, String.toList_append, ih,
          productionLine_toList]
  simp [text, writtenLines, hjoin]

end Grammar

/-! ## Reading lines -/

/-- A line of fields counts as it stands. -/
theorem significant_intercalate {fields : List (List Char)} (h : ∀ f ∈ fields, Text.IsField f) :
    significant (List.intercalate [' '] fields) = List.intercalate [' '] fields := by
  have hcomment := (Text.not_mem_intercalate h).2
  rw [significant, List.takeWhile_eq_self_iff.2, Text.trim_intercalate h]
  intro c hc
  simpa using fun heq : c = '#' => hcomment (heq ▸ hc)

theorem isEmpty_intercalate {fields : List (List Char)} (h : ∀ f ∈ fields, Text.IsField f)
    (hne : fields ≠ []) : (List.intercalate [' '] fields).isEmpty = false := by
  refine eq_false_of_ne_true fun hempty => hne ?_
  rw [← Text.words_intercalate h, List.isEmpty_iff.1 hempty]
  rfl

/-- The separator has a word in the place of the arrow. -/
theorem words_lexiconSeparator : Text.words lexiconSeparator.toList =
    ["=====".toList, "LEXICON".toList, "=====".toList] := by
  decide +kernel

section RuleLine

variable {r : Rule} (hnames : r.HasPlainNames) (hfinite : r.logprob.isFinite = true)
include hnames hfinite

theorem splitRule_line (line : Nat) :
    splitRule line r.line = .ok (r.parent.toList, r.right.map String.toList, r.logprob) := by
  have hwords := Text.words_intercalate (Rule.isField_of_mem_fields hnames hfinite)
  unfold splitRule
  rw [Rule.line, hwords]
  simp only [Rule.fields, if_true, List.getLast?_append, List.getLast?_singleton, Option.some_or,
    Score.parse?_chars, List.dropLast_concat]

/-- The line of a rule is read as the rule. -/
theorem Reading.readRule_line (line : Nat) (hkind : r.isLexical = false) :
    readRule line r.line = .ok r := by
  unfold readRule
  rw [splitRule_line hnames hfinite]
  cases r with
  | binary p l r logprob => simp [Rule.right, Rule.parent, Rule.logprob, bind, Except.bind]
  | unary p c logprob => simp [Rule.right, Rule.parent, Rule.logprob, bind, Except.bind]
  | lexical p w logprob => cases hkind

theorem Reading.readLexical_line (line : Nat) (hkind : r.isLexical = true) :
    readLexical line r.line = .ok r := by
  unfold readLexical
  rw [splitRule_line hnames hfinite]
  cases r with
  | binary p l r logprob => cases hkind
  | unary p c logprob => cases hkind
  | lexical p w logprob => simp [Rule.right, Rule.parent, Rule.logprob, bind, Except.bind]

theorem line_ne_lexiconSeparator : r.line ≠ lexiconSeparator.toList := by
  intro heq
  have hwords := Text.words_intercalate (Rule.isField_of_mem_fields hnames hfinite)
  rw [← Rule.line, heq, words_lexiconSeparator, Rule.fields] at hwords
  simp at hwords

/-- In its part, the line of a rule adds the rule to the draft. -/
theorem Reading.readLine_line {state : Reading} (line : Nat)
    (hpart : state.part = if r.isLexical then .lexicon else .rules) :
    state.readLine line r.line = .ok { state with draft := state.draft.addRule r } := by
  have hfields := Rule.isField_of_mem_fields hnames hfinite
  have hsignificant : significant r.line = r.line := significant_intercalate hfields
  have hnonempty : r.line.isEmpty = false := isEmpty_intercalate hfields (List.cons_ne_nil _ _)
  unfold readLine
  dsimp only
  rw [hsignificant, hnonempty, if_neg Bool.false_ne_true,
    if_neg (line_ne_lexiconSeparator hnames hfinite), hpart]
  cases hkind : r.isLexical with
  | true =>
      rw [if_pos rfl, readLexical_line hnames hfinite line hkind]
      rfl
  | false =>
      rw [if_neg Bool.false_ne_true, readRule_line hnames hfinite line hkind]
      rfl

end RuleLine

/-! ## Reading all lines -/

namespace Reading

theorem readLines_cons_of_ok {state next : Reading} {line : Nat} {raw : List Char}
    (h : state.readLine line raw = .ok next) (rest : List (List Char)) :
    state.readLines line (raw :: rest) = next.readLines (line + 1) rest := by
  rw [readLines, h]
  rfl

theorem readLines_append_of_ok : ∀ {raws : List (List Char)} {state next : Reading} {line : Nat},
    state.readLines line raws = .ok next → ∀ rest : List (List Char),
    state.readLines line (raws ++ rest) = next.readLines (line + raws.length) rest
  | [], state, next, line, h, rest => by
      cases h
      rfl
  | raw :: raws, state, next, line, h, rest => by
      rw [readLines] at h
      cases hraw : state.readLine line raw with
      | error e => rw [hraw] at h; cases h
      | ok middle =>
          rw [hraw] at h
          rw [List.cons_append, readLines_cons_of_ok hraw, readLines_append_of_ok h rest,
            List.length_cons, Nat.add_assoc, Nat.add_comm 1]

/-- The lines of the rules of one part add the rules to the draft. -/
theorem readLines_rules {lexical : Bool} : ∀ (rules : List Rule) {state : Reading} (line : Nat),
    (∀ r ∈ rules, r.HasPlainNames ∧ r.logprob.isFinite = true ∧ r.isLexical = lexical) →
    (state.part = if lexical then .lexicon else .rules) →
    state.readLines line (rules.map Rule.line) =
      .ok { state with draft := rules.foldl Draft.addRule state.draft }
  | [], state, line, _, _ => rfl
  | r :: rules, state, line, hrules, hpart => by
      obtain ⟨hnames, hfinite, hkind⟩ := hrules r List.mem_cons_self
      have hfirst : state.readLine line r.line = .ok _ :=
        readLine_line hnames hfinite line (by rw [hpart, hkind])
      have hrest := fun r' hr' => hrules r' (List.mem_cons_of_mem r hr')
      rw [List.map_cons, readLines_cons_of_ok hfirst, List.foldl_cons]
      exact readLines_rules rules (line + 1) hrest hpart

theorem readLine_start {start : String} (hstart : Text.IsField start.toList) (line : Nat) :
    ({} : Reading).readLine line start.toList =
      .ok { part := .rules, draft := { start := some start } } := by
  have hfields : ∀ f ∈ [start.toList], Text.IsField f := fun f hf => by
    rwa [List.mem_singleton.1 hf]
  have hline : List.intercalate [' '] [start.toList] = start.toList := List.intercalate_singleton
  have hsignificant := significant_intercalate hfields
  have hnonempty := isEmpty_intercalate hfields (List.cons_ne_nil _ _)
  have hseparator : start.toList ≠ lexiconSeparator.toList := by
    intro heq
    have hwords := Text.words_intercalate hfields
    rw [hline, heq, words_lexiconSeparator] at hwords
    simp at hwords
  rw [hline] at hsignificant hnonempty
  unfold readLine
  dsimp only
  rw [hsignificant, hnonempty, if_neg Bool.false_ne_true, if_neg hseparator]
  simp [Draft.setStart]

theorem readLine_lexiconSeparator {state : Reading} (hpart : state.part ≠ .start) (line : Nat) :
    state.readLine line lexiconSeparator.toList = .ok { state with part := .lexicon } := by
  have hsignificant : significant lexiconSeparator.toList = lexiconSeparator.toList := by
    decide +kernel
  unfold readLine
  dsimp only
  rw [hsignificant, if_neg (by decide +kernel), if_pos rfl, if_neg hpart]

/-- The written lines are read as the draft of the rules, the lexical ones last. -/
theorem readLines_written {start : String} {rules lexicon : List Rule}
    (hstart : Text.IsField start.toList)
    (hrules : ∀ r ∈ rules, r.HasPlainNames ∧ r.logprob.isFinite = true ∧ r.isLexical = false)
    (hlexicon : ∀ r ∈ lexicon, r.HasPlainNames ∧ r.logprob.isFinite = true ∧ r.isLexical = true) :
    ({} : Reading).readLines 1 (writtenLines start rules lexicon ++ [[]]) = .ok {
      part := .lexicon
      draft := (rules ++ lexicon).foldl Draft.addRule { start := some start } } := by
  rw [writtenLines, List.cons_append, readLines_cons_of_ok (readLine_start hstart 1),
    List.append_assoc, readLines_append_of_ok (readLines_rules rules 2 hrules rfl),
    List.cons_append,
    readLines_cons_of_ok (readLine_lexiconSeparator (show Part.rules ≠ .start by decide) _),
    readLines_append_of_ok (readLines_rules lexicon _ hlexicon rfl), List.foldl_append]
  -- Nothing stands behind the last line feed.
  exact readLines_cons_of_ok rfl []

end Reading

theorem foldl_addRule (rules : List Rule) : ∀ d : Draft,
    rules.foldl Draft.addRule d = { d with rules := d.rules ++ rules } := by
  induction rules with
  | nil => intro d; simp
  | cons r rules ih => intro d; simp [ih, Draft.addRule]

/-- The text of written lines is read by building the draft of the rules. -/
theorem parse_writtenLines {start : String} {rules lexicon : List Rule} {text : String}
    (htext : text.toList = (writtenLines start rules lexicon).flatMap (· ++ ['\n']))
    (hstart : Text.IsField start.toList)
    (hrules : ∀ r ∈ rules, r.HasPlainNames ∧ r.logprob.isFinite = true ∧ r.isLexical = false)
    (hlexicon : ∀ r ∈ lexicon, r.HasPlainNames ∧ r.logprob.isFinite = true ∧ r.isLexical = true) :
    Grammar.parse text =
      (Draft.build { start := some start, rules := (rules ++ lexicon).toArray }).mapError
        .grammar := by
  have hlines : ∀ l ∈ writtenLines start rules lexicon, '\n' ∉ l := by
    have hline : ∀ r : Rule, r.HasPlainNames → r.logprob.isFinite = true → '\n' ∉ r.line :=
      fun r hnames hfinite =>
        (Text.not_mem_intercalate (Rule.isField_of_mem_fields hnames hfinite)).1
    intro l hl
    rcases List.mem_cons.1 hl with rfl | hl
    · exact fun hmem => absurd (hstart.2 _ hmem).1 (by decide)
    · rcases List.mem_append.1 hl with hl | hl
      · obtain ⟨r, hr, rfl⟩ := List.mem_map.1 hl
        exact hline r (hrules r hr).1 (hrules r hr).2.1
      · rcases List.mem_cons.1 hl with rfl | hl
        · decide +kernel
        · obtain ⟨r, hr, rfl⟩ := List.mem_map.1 hl
          exact hline r (hlexicon r hr).1 (hlexicon r hr).2.1
  unfold Grammar.parse
  rw [htext, Text.lines_flatMap hlines, Reading.readLines_written hstart hrules hlexicon,
    foldl_addRule]
  simp [bind, Except.bind]

/-! ## Names that were read -/

/-- The part of a line that counts holds no number sign. -/
theorem not_mem_significant (raw : List Char) : '#' ∉ significant raw := by
  intro hmem
  have hkept := List.mem_takeWhile_imp (Text.mem_of_mem_trim hmem)
  simp at hkept

theorem isField_of_mem_words {raw w : List Char} (h : w ∈ Text.words (significant raw)) :
    Text.IsField w := by
  obtain ⟨hne, hchars⟩ := Text.of_mem_words h
  refine ⟨hne, fun c hc => ⟨(hchars c hc).1, ?_⟩⟩
  rintro rfl
  exact not_mem_significant raw (hchars _ hc).2

/-- What stands in a rule are words of its line. -/
theorem mem_words_of_splitRule {line : Nat} {text parent : List Char}
    {symbols : List (List Char)} {logprob : Score}
    (h : splitRule line text = .ok (parent, symbols, logprob)) :
    ∀ w ∈ parent :: symbols, w ∈ Text.words text := by
  unfold splitRule at h
  split at h
  · next first arrow rest hwords =>
    rw [hwords]
    split at h
    · split at h
      · cases h
      · split at h
        · cases h
        · cases h
          intro w hw
          rcases List.mem_cons.1 hw with rfl | hw
          · exact List.mem_cons_self
          · exact List.mem_cons_of_mem _ (List.mem_cons_of_mem _ (List.mem_of_mem_dropLast hw))
    · cases h
  · cases h

namespace Reading

/-- A rule that was read has the parts of its line. -/
theorem splitRule_of_readRule {line : Nat} {text : List Char} {r : Rule}
    (h : readRule line text = .ok r ∨ readLexical line text = .ok r) :
    ∃ parent symbols logprob, splitRule line text = .ok (parent, symbols, logprob) ∧
      r.parent = String.ofList parent ∧ r.right = symbols.map String.ofList := by
  unfold readRule readLexical at h
  cases hsplit : splitRule line text with
  | error e => rw [hsplit] at h; rcases h with h | h <;> cases h
  | ok parts =>
      obtain ⟨parent, symbols, logprob⟩ := parts
      refine ⟨parent, symbols, logprob, rfl, ?_⟩
      rw [hsplit] at h
      simp only [bind, Except.bind] at h
      rcases h with h | h
      · split at h
        · cases h
          exact ⟨rfl, rfl⟩
        · cases h
          exact ⟨rfl, rfl⟩
        · cases h
      · split at h
        · cases h
          exact ⟨rfl, rfl⟩
        · cases h

theorem hasPlainNames_of_readRule {line : Nat} {raw : List Char} {r : Rule}
    (h : readRule line (significant raw) = .ok r ∨ readLexical line (significant raw) = .ok r) :
    r.HasPlainNames := by
  obtain ⟨parent, symbols, logprob, hsplit, hparent, hright⟩ := splitRule_of_readRule h
  have hfields : ∀ w ∈ parent :: symbols, Text.IsField w := fun w hw =>
    isField_of_mem_words (mem_words_of_splitRule hsplit w hw)
  intro name hname
  rw [hparent, hright, ← List.map_cons] at hname
  obtain ⟨w, hw, rfl⟩ := List.mem_map.1 hname
  rw [String.toList_ofList]
  exact hfields w hw

/-- The names of the rules read so far are fields, and no nonterminal is marked. -/
structure Plain (state : Reading) : Prop where
  rules : ∀ r ∈ state.draft.rules, r.HasPlainNames
  unmarked : state.draft.factored = #[]

theorem Plain.addRule {state : Reading} {r : Rule} (h : state.Plain) (hr : r.HasPlainNames) :
    Plain { state with draft := state.draft.addRule r } where
  rules r' hr' := by
    rcases Array.mem_push.1 hr' with hr' | rfl
    · exact h.rules r' hr'
    · exact hr
  unmarked := h.unmarked

theorem Plain.readLine {state next : Reading} {line : Nat} {raw : List Char} (h : state.Plain)
    (hread : state.readLine line raw = .ok next) : next.Plain := by
  unfold Reading.readLine at hread
  dsimp only at hread
  split at hread
  · cases hread
    exact h
  · split at hread
    · split at hread
      · cases hread
      · cases hread
        exact ⟨h.rules, h.unmarked⟩
    · split at hread
      · cases hread
        exact ⟨h.rules, h.unmarked⟩
      · cases hrule : readRule line (significant raw) with
        | error e => rw [hrule] at hread; cases hread
        | ok r =>
            rw [hrule] at hread
            cases hread
            exact h.addRule (hasPlainNames_of_readRule (Or.inl hrule))
      · cases hrule : readLexical line (significant raw) with
        | error e => rw [hrule] at hread; cases hread
        | ok r =>
            rw [hrule] at hread
            cases hread
            exact h.addRule (hasPlainNames_of_readRule (Or.inr hrule))

theorem Plain.readLines : ∀ {raws : List (List Char)} {state next : Reading} {line : Nat},
    state.Plain → state.readLines line raws = .ok next → next.Plain
  | [], state, next, line, h, hread => by
      cases hread
      exact h
  | raw :: raws, state, next, line, h, hread => by
      cases hraw : state.readLine line raw with
      | error e => rw [Reading.readLines, hraw] at hread; cases hread
      | ok middle =>
          rw [readLines_cons_of_ok hraw] at hread
          exact (h.readLine hraw).readLines hread

end Reading

namespace Grammar

/-- A grammar that was read is built from the draft that was read. -/
theorem build_of_parse {text : String} {g : Grammar} (h : Grammar.parse text = .ok g) :
    ∃ state : Reading, state.Plain ∧ state.draft.build = .ok g := by
  unfold Grammar.parse at h
  cases hread : ({} : Reading).readLines 1 (Text.lines text.toList) with
  | error e => rw [hread] at h; cases h
  | ok state =>
      have hplain : ({} : Reading).Plain := ⟨nofun, rfl⟩
      rw [hread] at h
      change (if _ then _ else _) = _ at h
      split at h
      · cases h
      · cases hbuild : state.draft.build with
        | error e => rw [hbuild] at h; cases h
        | ok g' =>
            rw [hbuild] at h
            cases h
            exact ⟨state, hplain.readLines hread, hbuild⟩

/-- The names of a grammar that was read are fields.  The start symbol is one since it is the
parent of a rule. -/
theorem hasPlainNames_of_parse {text : String} {g : Grammar} (h : Grammar.parse text = .ok g) :
    g.HasPlainNames := by
  obtain ⟨state, hplain, hbuild⟩ := build_of_parse h
  have hsymbols : ∀ r ∈ state.draft.rules.toList, ∀ name,
      name ∈ r.nonterminals ∨ name ∈ r.words → Text.IsField name.toList := fun r hr name hname =>
    hplain.rules r (Array.mem_toList_iff.1 hr) name (Rule.mem_symbols.2 hname)
  constructor
  · intro name hname
    obtain ⟨r, hr, hparent⟩ := (admissible_of_build hbuild).used
    rw [mem_nonterminals_of_build hbuild, Draft.mem_nonterminals, hplain.unmarked] at hname
    rcases hname with (rfl | ⟨r', hr', hname⟩) | hname
    · exact hparent ▸ hplain.rules r (Array.mem_toList_iff.1 hr) _ List.mem_cons_self
    · exact hsymbols r' hr' name (Or.inl hname)
    · exact absurd hname (Array.not_mem_empty _)
  · intro name hname
    obtain ⟨r, hr, hname⟩ := (mem_words_of_build hbuild).1 hname
    exact hsymbols r hr name (Or.inr hname)

/-! ## Reading what was written -/

/-- The productions that are, or are not, lexical are the rules that are, or are not. -/
theorem map_rule_productionIds (g : Grammar) (lexical : Bool) :
    (g.productionIds lexical).map g.rule = g.rules.filter fun r => r.isLexical == lexical := by
  unfold productionIds rules
  rw [List.filter_map]
  congr 2
  funext id
  simp only [Function.comp_apply, Rule.isLexical, rule, Production.kind_rule]

/-- The rules of a built grammar with plain names can be written. -/
theorem hasPlainNames_of_mem_rules {d : Draft} {g : Grammar} (h : d.build = .ok g)
    (hplain : g.HasPlainNames) : ∀ r ∈ g.rules, r.HasPlainNames ∧ r.logprob.isFinite = true := by
  rw [rules_of_build h]
  refine fun r hr => ⟨fun name hname => ?_, (admissible_of_build h).finite r hr⟩
  rcases Rule.mem_symbols.1 hname with hname | hname
  · exact hplain.1 name ((mem_nonterminals_of_build h).2
      (Draft.mem_nonterminals.2 (Or.inl (Or.inr ⟨r, hr, hname⟩))))
  · exact hplain.2 name ((mem_words_of_build h).2 ⟨r, hr, hname⟩)

/-- Taking the rules apart and putting them together again puts the lexical ones last. -/
theorem filter_isLexical_append (rules : List Rule) (lexical : Bool) :
    (((rules.filter fun r => r.isLexical == false) ++
      rules.filter fun r => r.isLexical == true).filter fun r => r.isLexical == lexical) =
      rules.filter fun r => r.isLexical == lexical := by
  rw [List.filter_append, List.filter_filter, List.filter_filter]
  cases lexical with
  | false => simp
  | true => simp

theorem perm_filter_isLexical (rules : List Rule) :
    ((rules.filter fun r => r.isLexical == false) ++
      rules.filter fun r => r.isLexical == true).Perm rules := by
  simpa using List.filter_append_perm (fun r : Rule => r.isLexical == false) rules

/-- The written form of a grammar whose names are fields is read as a grammar with the same
start symbol and the same rules, the lexical ones behind the others, and that grammar has the
same written form.  Grammars that were read are such grammars. -/
theorem text_reads_back {g : Grammar}
    (h : (∃ d : Draft, d.build = .ok g) ∧ g.HasPlainNames ∨ ∃ text, Grammar.parse text = .ok g) :
    ∃ g', Grammar.parse g.text = .ok g' ∧
      g'.nonterminalName g'.start = g.nonterminalName g.start ∧
      g'.rules = (g.productionIds false).map g.rule ++ (g.productionIds true).map g.rule ∧
      g'.text = g.text := by
  obtain ⟨⟨d, hbuild⟩, hplain⟩ : (∃ d : Draft, d.build = .ok g) ∧ g.HasPlainNames := by
    rcases h with h | ⟨text, h⟩
    · exact h
    · obtain ⟨state, -, hbuild⟩ := build_of_parse h
      exact ⟨⟨state.draft, hbuild⟩, hasPlainNames_of_parse h⟩
  have hpart : ∀ lexical, ∀ r ∈ (g.productionIds lexical).map g.rule,
      r.HasPlainNames ∧ r.logprob.isFinite = true ∧ r.isLexical = lexical := by
    intro lexical r hr
    rw [map_rule_productionIds, List.mem_filter, beq_iff_eq] at hr
    obtain ⟨hnames, hfinite⟩ := hasPlainNames_of_mem_rules hbuild hplain r hr.1
    exact ⟨hnames, hfinite, hr.2⟩
  have hstart : Text.IsField (g.nonterminalName g.start).toList :=
    hplain.1 _ (SymbolTable.name_mem (wellFormed_of_build hbuild).start_lt)
  have hparse := parse_writtenLines g.text_toList hstart (hpart false) (hpart true)
  -- The rules that are read are those of the draft in another order, so they are built too.
  have hadmissible : Draft.Admissible
      { start := some (g.nonterminalName g.start)
        rules := ((g.productionIds false).map g.rule ++ (g.productionIds true).map g.rule).toArray }
      (g.nonterminalName g.start) := by
    refine (admissible_of_build hbuild).perm rfl ?_ nofun
    rw [map_rule_productionIds, map_rule_productionIds, ← rules_of_build hbuild]
    exact perm_filter_isLexical g.rules
  obtain ⟨g', hbuild'⟩ := hadmissible.exists_build
  have hname : g'.nonterminalName g'.start = g.nonterminalName g.start :=
    (Option.some.inj (admissible_of_build hbuild').start_eq).symm
  have hrules : g'.rules =
      (g.productionIds false).map g.rule ++ (g.productionIds true).map g.rule :=
    rules_of_build hbuild'
  refine ⟨g', by rw [hparse, hbuild']; rfl, hname, hrules, ?_⟩
  have hsame : ∀ lexical, (g'.productionIds lexical).map g'.rule =
      (g.productionIds lexical).map g.rule := by
    intro lexical
    rw [map_rule_productionIds, hrules, map_rule_productionIds, map_rule_productionIds,
      filter_isLexical_append, map_rule_productionIds]
  rw [← String.toList_inj, text_toList, text_toList, hname, hsame, hsame]

/-- A draft whose names look like arrows, numbers and pieces of the separator, with a lexical
rule between the others. -/
def lookalikeDraft : Draft where
  start := some "->"
  rules := #[.lexical "->" "-0.5" .negZero, .binary "->" "=====" "->" (.ofWholeUnits (-3)),
    .lexical "=====" "LEXICON" (.ofRatio true 3 2), .unary "->" "=====" (.ofNat 0)]
  factored := #["0"]

/-- The grammar of that draft. -/
def lookalikeGrammar : Grammar := lookalikeDraft.build.toOption.get (by decide +kernel)

theorem lookalikeDraft_builds : lookalikeDraft.build = .ok lookalikeGrammar :=
  Draft.build_eq_ok _

/-- Such names are read as names, and the lexical rules move behind the others. -/
theorem text_reads_back_lookalikes :
    ((∃ d : Draft, d.build = .ok lookalikeGrammar) ∧ lookalikeGrammar.HasPlainNames) ∧
      ∃ g', Grammar.parse lookalikeGrammar.text = .ok g' ∧
        g'.nonterminalName g'.start = "->" ∧
        g'.rules = [.binary "->" "=====" "->" (.ofWholeUnits (-3)),
          .unary "->" "=====" (.ofNat 0), .lexical "->" "-0.5" .negZero,
          .lexical "=====" "LEXICON" (.ofRatio true 3 2)] ∧
        g'.text = lookalikeGrammar.text := by
  have hplain : (∃ d : Draft, d.build = .ok lookalikeGrammar) ∧ lookalikeGrammar.HasPlainNames :=
    ⟨⟨lookalikeDraft, lookalikeDraft_builds⟩, by decide +kernel⟩
  obtain ⟨g', hparse, hstart, hrules, htext⟩ := text_reads_back (Or.inl hplain)
  refine ⟨hplain, g', hparse, hstart.trans (by decide +kernel), hrules.trans ?_, htext⟩
  decide +kernel

end Grammar

end BestParse
