import Mathlib.Data.List.Chain
import BestParse.Proofs.Grammar.Reading

/-!
# The layout of a written grammar

A text can be laid out anew without becoming another grammar.  Lines may be put in that are blank
or hold a comment only (`IsIdle`), a line may get a comment, its blanks at the ends may be others,
and between the fields of a rule there may be more of them (`Edit`).  What a line counts for is
`significant`, and the first three edits do not change it.  The fourth one does, but it leaves the
words, and a rule is read off its words.

Two lines are not read off their words.  The line of the start symbol is taken as it stands, and
the separator is compared as a whole.  So a gap grows on a line of a rule only, and it has to
grow: the separator has single spaces, so what grew is not it.

Errors hold the number of their line.  Reading from another number shifts all of them
(`readLines_renumber`), and the lines put in before a line shift its number by as many.
-/

namespace BestParse

/-! ## What a line counts for -/

/-- A line without its comment. -/
def uncommented (raw : List Char) : List Char := raw.takeWhile (· ≠ '#')

theorem significant_eq (raw : List Char) : significant raw = Text.trim (uncommented raw) := rfl

theorem uncommented_append {cs : List Char} (h : '#' ∉ cs) (ds : List Char) :
    uncommented (cs ++ ds) = cs ++ uncommented ds :=
  List.takeWhile_append_of_pos fun _ hc => decide_eq_true fun heq => h (heq ▸ hc)

theorem uncommented_eq_self {cs : List Char} (h : '#' ∉ cs) : uncommented cs = cs := by
  have happend := uncommented_append h []
  rwa [List.append_nil, show uncommented [] = [] from rfl, List.append_nil] at happend

@[simp] theorem uncommented_comment (raw text : List Char) :
    uncommented (raw ++ '#' :: text) = uncommented raw := by
  induction raw with
  | nil => rfl
  | cons c raw ih =>
      by_cases hc : c = '#'
      · simp [uncommented, hc]
      · simpa [uncommented, hc] using ih

/-- Blanks are no comment. -/
theorem not_mem_of_blanks {b : List Char} (hb : Text.Blanks b) : '#' ∉ b := fun hmem =>
  absurd (hb _ hmem) (by decide)

/-- Blanks at the ends of a line do not count. -/
theorem significant_blanks {b b' : List Char} (hb : Text.Blanks b) (hb' : Text.Blanks b')
    (raw : List Char) : significant (b ++ raw ++ b') = significant raw := by
  have hplain := not_mem_of_blanks hb
  have hplain' := not_mem_of_blanks hb'
  by_cases hmem : '#' ∈ raw
  · obtain ⟨line, text, rfl, hline⟩ := List.eq_append_cons_of_mem hmem
    have hnone : Text.Blanks [] := nofun
    have hfront := Text.trim_append_blanks hb hnone line
    rw [List.append_nil] at hfront
    rw [significant_eq, significant_eq, uncommented_comment, uncommented_eq_self hline,
      List.append_assoc, List.append_assoc, List.cons_append, ← List.append_assoc,
      uncommented_comment, uncommented_eq_self (by simp [hplain, hline]), hfront]
  · rw [significant_eq, significant_eq, uncommented_eq_self hmem,
      uncommented_eq_self (by simp [hplain, hplain', hmem]), Text.trim_append_blanks hb hb']

/-- A line without anything before its comment, if it has one. -/
def IsIdle (raw : List Char) : Prop := ∀ c ∈ (raw.dropWhile Text.isBlank).head?, c = '#'

instance (raw : List Char) : Decidable (IsIdle raw) := Option.decidableForallMem _

theorem significant_of_isIdle {raw : List Char} (h : IsIdle raw) : significant raw = [] := by
  have hblanks : Text.Blanks (raw.takeWhile Text.isBlank) := fun c hc =>
    List.mem_takeWhile_imp hc
  have hcut := List.takeWhile_append_dropWhile (p := Text.isBlank) (l := raw)
  rw [← hcut, significant_eq]
  cases hrest : raw.dropWhile Text.isBlank with
  | nil =>
      rw [List.append_nil, uncommented_eq_self (not_mem_of_blanks hblanks),
        Text.trim_blanks hblanks]
  | cons c rest =>
      obtain rfl := h c (by rw [hrest]; rfl)
      rw [uncommented_comment, uncommented_eq_self (not_mem_of_blanks hblanks),
        Text.trim_blanks hblanks]

/-! ## Gaps -/

section

variable {b d u v : List Char} {x y : Char}

/-- A gap between two fields of a line that counts. -/
theorem significant_gap (hb : Text.Blanks b) (hu : '#' ∉ u) (hx : x ≠ '#') (hy : y ≠ '#') :
    significant (u ++ x :: (b ++ y :: v)) =
      Text.trim (u ++ x :: (b ++ y :: uncommented v)) := by
  have hplain : '#' ∉ u ++ x :: (b ++ [y]) := by
    simp [hu, not_mem_of_blanks hb, hx.symm, hy.symm]
  have happend := uncommented_append hplain v
  simp only [List.append_assoc, List.cons_append, List.nil_append] at happend
  rw [significant_eq, happend]

/-- How wide a gap is makes no difference to the words. -/
theorem words_gap (hb : Text.Blanks b) (hd : Text.Blanks d) (hbne : b ≠ []) (hdne : d ≠ [])
    (hu : '#' ∉ u) (hx : x ≠ '#') (hy : y ≠ '#') :
    Text.words (significant (u ++ x :: (d ++ y :: v))) =
      Text.words (significant (u ++ x :: (b ++ y :: v))) := by
  have hwords : ∀ {b : List Char}, Text.Blanks b → b ≠ [] →
      Text.words (significant (u ++ x :: (b ++ y :: v))) =
        Text.words (u ++ [x]) ++ Text.words (y :: uncommented v) := by
    intro b hb hne
    rw [significant_gap hb hu hx hy, Text.words_trim, ← Text.words_append_blanks hb hne]
    simp
  rw [hwords hb hbne, hwords hd hdne]

theorem significant_gap_ne_nil (hb : Text.Blanks b) (hu : '#' ∉ u)
    (hx : Text.isBlank x = false ∧ x ≠ '#') (hy : Text.isBlank y = false ∧ y ≠ '#') :
    significant (u ++ x :: (b ++ y :: v)) ≠ [] := by
  obtain ⟨first, last, htrim⟩ := Text.trim_append_cons hx.1 hy.1 u b (uncommented v)
  rw [significant_gap hb hu hx.2 hy.2, htrim]
  simp

/-- The separator has single spaces, so a line with a wider gap is not the separator. -/
theorem significant_ne_lexiconSeparator (hd : Text.Blanks d) (hwide : 2 ≤ d.length) (hu : '#' ∉ u)
    (hx : Text.isBlank x = false ∧ x ≠ '#') (hy : Text.isBlank y = false ∧ y ≠ '#') :
    significant (u ++ x :: (d ++ y :: v)) ≠ lexiconSeparator.toList := by
  intro heq
  obtain ⟨first, last, htrim⟩ := Text.trim_append_cons hx.1 hy.1 u d (uncommented v)
  rw [significant_gap hd hu hx.2 hy.2, htrim] at heq
  have hsingle : lexiconSeparator.toList.IsChain
      fun c c' => ¬ (Text.isBlank c = true ∧ Text.isBlank c' = true) := by decide +kernel
  match d, hwide with
  | c :: c' :: rest, _ =>
    have hsplit : lexiconSeparator.toList = (first ++ [x]) ++ c :: c' :: (rest ++ y :: last) := by
      rw [← heq]
      simp
    rw [hsplit] at hsingle
    exact (List.isChain_append_cons_cons.1 hsingle).2.1 ⟨hd c (by simp), hd c' (by simp)⟩

end

/-! ## Edits -/

/-- An edit of a line that stands behind the given lines. -/
inductive Edit (before : List (List Char)) : List Char → List Char → Prop where
  /-- A comment is put behind the line. -/
  | comment (raw text : List Char) : Edit before raw (raw ++ '#' :: text)
  /-- Other blanks stand at the ends of the line. -/
  | ends {b b' d d' : List Char} (hb : Text.Blanks b) (hb' : Text.Blanks b') (hd : Text.Blanks d)
      (hd' : Text.Blanks d') (raw : List Char) : Edit before (b ++ raw ++ b') (d ++ raw ++ d')
  /-- Between two fields of a rule there are more blanks. -/
  | gap {b d u v : List Char} {x y : Char} (hb : Text.Blanks b) (hd : Text.Blanks d) (hne : b ≠ [])
      (grows : b.length < d.length) (hu : '#' ∉ u) (hx : Text.isBlank x = false ∧ x ≠ '#')
      (hy : Text.isBlank y = false ∧ y ≠ '#') (hstarted : ∃ raw ∈ before, significant raw ≠ [])
      (hrule : significant (u ++ x :: (b ++ y :: v)) ≠ lexiconSeparator.toList) :
      Edit before (u ++ x :: (b ++ y :: v)) (u ++ x :: (d ++ y :: v))

/-! ## Numbers of lines -/

/-- The error with another number of its line. -/
def ReadError.renumber (f : Nat → Nat) : ReadError → ReadError
  | .missingStart => .missingStart
  | .missingArrow line => .missingArrow (f line)
  | .arity line expected found => .arity (f line) expected found
  | .invalidNumber line text => .invalidNumber (f line) text
  | .grammar error => .grammar error

section

variable {α β : Type} (f g : Nat → Nat)

/-- The same result, and an error with another number of its line. -/
def renumbered (result : Except ReadError α) : Except ReadError α :=
  result.mapError (ReadError.renumber f)

theorem renumbered_id (result : Except ReadError α) : renumbered id result = result := by
  cases result with
  | ok a => rfl
  | error e => cases e <;> rfl

theorem renumbered_comp (result : Except ReadError α) :
    renumbered g (renumbered f result) = renumbered (g ∘ f) result := by
  cases result with
  | ok a => rfl
  | error e => cases e <;> rfl

theorem renumbered_bind (result : Except ReadError α) (k : α → Except ReadError β) :
    renumbered f (result >>= k) = renumbered f result >>= fun a => renumbered f (k a) := by
  cases result <;> rfl

theorem renumbered_map (result : Except ReadError α) (k : α → β) :
    renumbered f (result.map k) = (renumbered f result).map k := by
  cases result <;> rfl

theorem splitRule_renumber (line : Nat) (text : List Char) :
    splitRule (f line) text = renumbered f (splitRule line text) := by
  unfold splitRule
  split
  · split
    · split
      · rfl
      · split <;> rfl
    · rfl
  · rfl

end

namespace Reading

variable (f : Nat → Nat) (state : Reading)

theorem readRule_renumber (line : Nat) (text : List Char) :
    readRule (f line) text = renumbered f (readRule line text) := by
  rw [readRule, readRule, renumbered_bind, splitRule_renumber]
  refine bind_congr fun parts => ?_
  obtain ⟨parent, symbols, logprob⟩ := parts
  dsimp only
  split <;> rfl

theorem readLexical_renumber (line : Nat) (text : List Char) :
    readLexical (f line) text = renumbered f (readLexical line text) := by
  rw [readLexical, readLexical, renumbered_bind, splitRule_renumber]
  refine bind_congr fun parts => ?_
  obtain ⟨parent, symbols, logprob⟩ := parts
  dsimp only
  split <;> rfl

theorem readLine_renumber (line : Nat) (raw : List Char) :
    state.readLine (f line) raw = renumbered f (state.readLine line raw) := by
  unfold readLine
  dsimp only
  split
  · rfl
  · split
    · split <;> rfl
    · split
      · rfl
      · rw [renumbered_map, readRule_renumber]
      · rw [renumbered_map, readLexical_renumber]

/-- Lines that are read with other numbers give errors with other numbers. -/
theorem readLines_renumber {f : Nat → Nat} : ∀ (raws : List (List Char)) (state : Reading)
    {line line' : Nat}, (∀ i < raws.length, f (line + i) = line' + i) →
    state.readLines line' raws = renumbered f (state.readLines line raws)
  | [], _, _, _, _ => rfl
  | raw :: raws, state, line, line', hf => by
      have hfirst : f line = line' := hf 0 (Nat.succ_pos _)
      have hrest : ∀ i < raws.length, f (line + 1 + i) = line' + 1 + i := fun i hi => by
        have hnext := hf (i + 1) (Nat.succ_lt_succ hi)
        rw [Nat.add_right_comm, Nat.add_assoc, hnext]
        omega
      rw [readLines, readLines, renumbered_bind, ← hfirst, readLine_renumber, hfirst]
      exact bind_congr fun next => readLines_renumber raws next hrest

/-! ## Reading lines in parts -/

theorem readLines_append : ∀ (raws rest : List (List Char)) (state : Reading) (line : Nat),
    state.readLines line (raws ++ rest) =
      state.readLines line raws >>= fun next => next.readLines (line + raws.length) rest
  | [], _, _, _ => rfl
  | raw :: raws, rest, state, line => by
      rw [List.cons_append, readLines, readLines]
      cases state.readLine line raw with
      | error e => rfl
      | ok next =>
          refine (readLines_append raws rest next (line + 1)).trans (bind_congr fun last => ?_)
          rw [List.length_cons, Nat.add_assoc, Nat.add_comm 1]

end Reading

/-- How a rule of a part is read. -/
def Part.reader (part : Part) : Nat → List Char → Except ReadError Rule :=
  if part = .lexicon then Reading.readLexical else Reading.readRule

/-- A line that counts and is not the separator: a start symbol or a rule. -/
def IsEntry (raw : List Char) : Prop :=
  significant raw ≠ [] ∧ significant raw ≠ lexiconSeparator.toList

namespace Reading

variable {state next : Reading} {line : Nat} {raw : List Char}

theorem readLine_blank (h : significant raw = []) (state : Reading) (line : Nat) :
    state.readLine line raw = .ok state := by
  rw [readLine, h]
  rfl

theorem readLine_separator (h : significant raw = lexiconSeparator.toList) (state : Reading)
    (line : Nat) :
    state.readLine line raw =
      if state.part = .start then .error .missingStart
      else .ok { state with part := .lexicon } := by
  have hne : lexiconSeparator.toList.isEmpty = false := by decide +kernel
  rw [readLine, h]
  simp [hne]

theorem readLine_first (h : IsEntry raw) (hpart : state.part = .start) (line : Nat) :
    state.readLine line raw =
      .ok { part := .rules, draft := state.draft.setStart (String.ofList (significant raw)) } := by
  rw [readLine]
  simp [h.1, h.2, hpart]

/-- A rule is read as its part has it. -/
theorem readLine_rule (h : IsEntry raw) (hpart : state.part ≠ .start) (line : Nat) :
    state.readLine line raw =
      (state.part.reader line (significant raw)).map
        fun rule => { state with draft := state.draft.addRule rule } := by
  rw [readLine]
  cases hstate : state.part with
  | start => exact absurd hstate hpart
  | rules => simp [h.1, h.2, Part.reader]
  | lexicon => simp [h.1, h.2, Part.reader]

/-- A rule is read off its words. -/
theorem reader_congr {text text' : List Char} (h : Text.words text = Text.words text')
    (part : Part) (line : Nat) : part.reader line text = part.reader line text' := by
  have hsplit : splitRule line text = splitRule line text' := by rw [splitRule, splitRule, h]
  rw [Part.reader]
  split
  · rw [readLexical, readLexical, hsplit]
  · rw [readRule, readRule, hsplit]

theorem readLines_blank (state : Reading) : ∀ {raws : List (List Char)} (line : Nat),
    (∀ raw ∈ raws, significant raw = []) → state.readLines line raws = .ok state
  | [], _, _ => rfl
  | raw :: raws, line, h => by
      rw [readLines_cons_of_ok (readLine_blank (h raw List.mem_cons_self) state line)]
      exact readLines_blank state (line + 1) fun raw' hraw' =>
        h raw' (List.mem_cons_of_mem raw hraw')

/-- Behind the start symbol no line is one. -/
theorem part_ne_start_of_readLine (h : state.readLine line raw = .ok next)
    (hcounts : state.part ≠ .start ∨ significant raw ≠ []) : next.part ≠ .start := by
  by_cases hblank : significant raw = []
  · rw [readLine_blank hblank] at h
    cases h
    exact hcounts.resolve_right fun hne => hne hblank
  by_cases hseparator : significant raw = lexiconSeparator.toList
  · rw [readLine_separator hseparator] at h
    split at h
    · cases h
    · cases h
      exact nofun
  by_cases hpart : state.part = .start
  · rw [readLine_first ⟨hblank, hseparator⟩ hpart] at h
    cases h
    exact nofun
  · rw [readLine_rule ⟨hblank, hseparator⟩ hpart] at h
    revert h
    cases state.part.reader line (significant raw) with
    | error e => exact nofun
    | ok rule =>
        rintro ⟨⟩
        exact hpart

theorem part_ne_start_of_readLines : ∀ {raws : List (List Char)} {state next : Reading}
    {line : Nat}, state.readLines line raws = .ok next →
    (state.part ≠ .start ∨ ∃ raw ∈ raws, significant raw ≠ []) → next.part ≠ .start
  | [], state, next, line, h, hcounts => by
      cases h
      simpa using hcounts
  | raw :: raws, state, next, line, h, hcounts => by
      cases hraw : state.readLine line raw with
      | error e => rw [readLines, hraw] at h; cases h
      | ok middle =>
          rw [readLines_cons_of_ok hraw] at h
          refine part_ne_start_of_readLines h ?_
          rw [List.exists_mem_cons_iff, ← or_assoc] at hcounts
          exact hcounts.imp_left (part_ne_start_of_readLine hraw)

/-- An edited line is read as before. -/
theorem readLine_edit {before : List (List Char)} {raw' : List Char} (h : Edit before raw raw')
    (hpart : (∃ raw ∈ before, significant raw ≠ []) → state.part ≠ .start) (line : Nat) :
    state.readLine line raw' = state.readLine line raw := by
  cases h with
  | comment raw text => rw [readLine, readLine, significant_eq, uncommented_comment, significant_eq]
  | ends hb hb' hd hd' raw =>
      rw [readLine, readLine, significant_blanks hb hb', significant_blanks hd hd']
  | @gap b d u v x y hb hd hne grows hu hx hy hstarted hrule =>
      have hpos := List.length_pos_iff.2 hne
      have hdne : d ≠ [] := List.length_pos_iff.1 (Nat.lt_trans hpos grows)
      have hwords := words_gap (v := v) hb hd hne hdne hu hx.2 hy.2
      have hentry : IsEntry (u ++ x :: (b ++ y :: v)) :=
        ⟨significant_gap_ne_nil hb hu hx hy, hrule⟩
      have hentry' : IsEntry (u ++ x :: (d ++ y :: v)) :=
        ⟨significant_gap_ne_nil hd hu hx hy,
          significant_ne_lexiconSeparator hd (by omega) hu hx hy⟩
      rw [readLine_rule hentry (hpart hstarted), readLine_rule hentry' (hpart hstarted),
        reader_congr hwords]

end Reading

/-! ## Texts laid out anew -/

/-- The second text is the first one laid out anew, and the function takes the number of each line
of the first to its number in the second. -/
inductive Relaid : String → String → (Nat → Nat) → Prop where
  /-- Nothing is done. -/
  | refl (text : String) : Relaid text text id
  /-- First one thing is done and then another. -/
  | trans {text text' text'' : String} {f g : Nat → Nat} (first : Relaid text text' f)
      (second : Relaid text' text'' g) : Relaid text text'' (g ∘ f)
  /-- Idle lines are put in. -/
  | insert {text text' : String} {before idle after : List (List Char)}
      (htext : Text.lines text.toList = before ++ after)
      (htext' : Text.lines text'.toList = before ++ (idle ++ after))
      (hidle : ∀ raw ∈ idle, IsIdle raw) :
      Relaid text text' fun n => if n ≤ before.length then n else n + idle.length
  /-- A line is edited. -/
  | edit {text text' : String} {before after : List (List Char)} {raw raw' : List Char}
      (htext : Text.lines text.toList = before ++ raw :: after)
      (htext' : Text.lines text'.toList = before ++ raw' :: after) (hedit : Edit before raw raw') :
      Relaid text text' id

namespace Reading

theorem readLines_insert {before idle after : List (List Char)} (hidle : ∀ raw ∈ idle, IsIdle raw) :
    ({} : Reading).readLines 1 (before ++ (idle ++ after)) =
      renumbered (fun n => if n ≤ before.length then n else n + idle.length)
        (({} : Reading).readLines 1 (before ++ after)) := by
  have hfirst : ∀ i < before.length,
      (if 1 + i ≤ before.length then 1 + i else 1 + i + idle.length) = 1 + i :=
    fun i hi => if_pos (by omega)
  rw [readLines_append, readLines_append, renumbered_bind, ← readLines_renumber before {} hfirst]
  refine bind_congr fun next => ?_
  have hblank : ∀ raw ∈ idle, significant raw = [] := fun raw hraw =>
    significant_of_isIdle (hidle raw hraw)
  rw [readLines_append, readLines_blank next _ hblank]
  exact readLines_renumber after next fun i hi => by
    rw [if_neg (by omega)]
    omega

theorem readLines_edit {before after : List (List Char)} {raw raw' : List Char}
    (hedit : Edit before raw raw') :
    ({} : Reading).readLines 1 (before ++ raw' :: after) =
      ({} : Reading).readLines 1 (before ++ raw :: after) := by
  rw [readLines_append, readLines_append]
  cases hbefore : ({} : Reading).readLines 1 before with
  | error e => rfl
  | ok next =>
      have hpart : (∃ raw ∈ before, significant raw ≠ []) → next.part ≠ .start := fun hstarted =>
        part_ne_start_of_readLines hbefore (Or.inr hstarted)
      show next.readLines _ (raw' :: after) = next.readLines _ (raw :: after)
      rw [readLines, readLines, readLine_edit hedit hpart]

end Reading

namespace Grammar

theorem parse_of_readLines {text text' : String} {f : Nat → Nat}
    (h : ({} : Reading).readLines 1 (Text.lines text'.toList) =
      renumbered f (({} : Reading).readLines 1 (Text.lines text.toList))) :
    parse text' = renumbered f (parse text) := by
  rw [parse, parse, renumbered_bind, h]
  refine bind_congr fun state => ?_
  split
  · rfl
  · cases state.draft.build <;> rfl

/-- A text that is laid out anew is the same grammar, or has the same error but for the number of
its line. -/
theorem parse_relaid {text text' : String} {f : Nat → Nat} (h : Relaid text text' f) :
    parse text' = renumbered f (parse text) := by
  induction h with
  | refl text => rw [renumbered_id]
  | trans first second ih ih' => rw [ih', ih, renumbered_comp]
  | insert htext htext' hidle =>
      refine parse_of_readLines ?_
      rw [htext, htext', Reading.readLines_insert hidle]
  | edit htext htext' hedit =>
      refine parse_of_readLines ?_
      rw [htext, htext', renumbered_id, Reading.readLines_edit hedit]

end Grammar

end BestParse
