import Mathlib.Data.List.Induction
import Mathlib.Data.Nat.Find
import BestParse.Proofs.Grammar.Layout

/-!
# Malformed lines of a written grammar

Behind the start symbol every line that counts is the separator or a rule.  A rule is malformed
if its second field is not an arrow, if nothing follows the arrow, if its last field is not a
number, or if its part has another number of symbols on the right (`Fault`).  What part a line
belongs to, and whether the start symbol came before it, is told by the lines before it
(`HasStart`, `partAfter`), and not by how they are read.

As long as no line is malformed the reader goes on, in the part that the lines tell
(`readLines_of_wellFormed`).  So it stops at the first line that is malformed, whatever follows,
and the draft is only built when no line is (`layout_and_first_fault`).
-/

namespace BestParse

/-! ## Faults of a line -/

/-- The arrow between the parent and the right-hand side. -/
def arrow : List Char := ['-', '>']

/-- What is wrong with the fields of a rule of a part, as the error for a line. -/
inductive Fault (part : Part) (line : Nat) : List (List Char) → ReadError → Prop where
  /-- The second field is not an arrow. -/
  | noArrow {fields : List (List Char)} (h : fields[1]? ≠ some arrow) :
      Fault part line fields (.missingArrow line)
  /-- Nothing follows the arrow. -/
  | nothing {parent : List Char} : Fault part line [parent, arrow] (.arity line .atLeastOne 0)
  /-- The last field is not a number. -/
  | number {parent last : List Char} {symbols : List (List Char)}
      (h : Score.parse? last = none) :
      Fault part line (parent :: arrow :: (symbols ++ [last])) (.invalidNumber line last)
  /-- Before the separator there should be one symbol or two. -/
  | rule {parent last : List Char} {symbols : List (List Char)} {logprob : Score}
      (hpart : part ≠ .lexicon) (hnumber : Score.parse? last = some logprob)
      (h : symbols.length ≠ 1 ∧ symbols.length ≠ 2) :
      Fault part line (parent :: arrow :: (symbols ++ [last]))
        (.arity line .oneOrTwo symbols.length)
  /-- Behind the separator there should be one word. -/
  | lexical {parent last : List Char} {symbols : List (List Char)} {logprob : Score}
      (hpart : part = .lexicon) (hnumber : Score.parse? last = some logprob)
      (h : symbols.length ≠ 1) :
      Fault part line (parent :: arrow :: (symbols ++ [last])) (.arity line .one symbols.length)

/-- The number of the line in an error. -/
def ReadError.line? : ReadError → Option Nat
  | .missingStart => none
  | .missingArrow line => some line
  | .arity line _ _ => some line
  | .invalidNumber line _ => some line
  | .grammar _ => none

theorem Fault.line?_eq {part : Part} {line : Nat} {fields : List (List Char)} {e : ReadError}
    (h : Fault part line fields e) : e.line? = some line := by
  cases h <;> rfl

/-! ## Reading faults -/

section

variable {line : Nat} {text parent last : List Char} {symbols : List (List Char)}

theorem splitRule_noArrow (h : (Text.words text)[1]? ≠ some arrow) :
    splitRule line text = .error (.missingArrow line) := by
  rw [splitRule]
  split
  · next hwords =>
    rw [hwords] at h
    exact if_neg fun heq => h (congrArg some heq)
  · rfl

theorem splitRule_nothing (h : Text.words text = [parent, arrow]) :
    splitRule line text = .error (.arity line .atLeastOne 0) := by
  rw [splitRule, h]
  rfl

theorem splitRule_number (h : Text.words text = parent :: arrow :: (symbols ++ [last]))
    (hnumber : Score.parse? last = none) :
    splitRule line text = .error (.invalidNumber line last) := by
  rw [splitRule, h]
  simp [arrow, hnumber]

theorem splitRule_ok {logprob : Score}
    (h : Text.words text = parent :: arrow :: (symbols ++ [last]))
    (hnumber : Score.parse? last = some logprob) :
    splitRule line text = .ok (parent, symbols, logprob) := by
  rw [splitRule, h]
  simp [arrow, hnumber]

/-- The forms that the fields of a line can have. -/
theorem fields_cases (fields : List (List Char)) :
    fields[1]? ≠ some arrow ∨ (∃ parent, fields = [parent, arrow]) ∨
      ∃ parent symbols last, fields = parent :: arrow :: (symbols ++ [last]) := by
  match fields with
  | [] => exact Or.inl nofun
  | [parent] => exact Or.inl nofun
  | parent :: second :: rest =>
    by_cases hsecond : second = arrow
    · subst hsecond
      rcases List.eq_nil_or_concat rest with rfl | ⟨symbols, last, rfl⟩
      · exact Or.inr (Or.inl ⟨parent, rfl⟩)
      · exact Or.inr (Or.inr ⟨parent, symbols, last, by rw [List.concat_eq_append]⟩)
    · exact Or.inl fun heq => hsecond (Option.some.inj heq)

namespace Reading

/-- A rule before the separator has one symbol or two. -/
theorem readRule_cases {logprob : Score}
    (h : splitRule line text = .ok (parent, symbols, logprob)) :
    ((symbols.length ≠ 1 ∧ symbols.length ≠ 2) ∧
        readRule line text = .error (.arity line .oneOrTwo symbols.length)) ∨
      ((symbols.length = 1 ∨ symbols.length = 2) ∧ ∃ rule, readRule line text = .ok rule) := by
  rw [readRule, h]
  rcases symbols with _ | ⟨x, _ | ⟨y, _ | ⟨z, symbols⟩⟩⟩
  · exact Or.inl ⟨by simp, rfl⟩
  · exact Or.inr ⟨by simp, _, rfl⟩
  · exact Or.inr ⟨by simp, _, rfl⟩
  · exact Or.inl ⟨by simp, rfl⟩

/-- A rule behind the separator has one word. -/
theorem readLexical_cases {logprob : Score}
    (h : splitRule line text = .ok (parent, symbols, logprob)) :
    (symbols.length ≠ 1 ∧
        readLexical line text = .error (.arity line .one symbols.length)) ∨
      (symbols.length = 1 ∧ ∃ rule, readLexical line text = .ok rule) := by
  rw [readLexical, h]
  rcases symbols with _ | ⟨x, _ | ⟨y, symbols⟩⟩
  · exact Or.inl ⟨by simp, rfl⟩
  · exact Or.inr ⟨by simp, _, rfl⟩
  · exact Or.inl ⟨by simp, rfl⟩

end Reading

theorem Part.reader_error {part : Part} {e : ReadError} (h : splitRule line text = .error e) :
    part.reader line text = .error e := by
  rw [Part.reader]
  split
  · rw [Reading.readLexical, h]
    rfl
  · rw [Reading.readRule, h]
    rfl

/-- A line has a fault, or its rule is read. -/
theorem fault_or_ok (part : Part) (line : Nat) (text : List Char) :
    (∃ e, Fault part line (Text.words text) e) ∨ ∃ rule, part.reader line text = .ok rule := by
  rcases fields_cases (Text.words text) with hfields | ⟨parent, hfields⟩ |
    ⟨parent, symbols, last, hfields⟩
  · exact Or.inl ⟨_, .noArrow hfields⟩
  · rw [hfields]
    exact Or.inl ⟨_, .nothing⟩
  · rw [hfields]
    cases hnumber : Score.parse? last with
    | none => exact Or.inl ⟨_, .number hnumber⟩
    | some logprob =>
        have hok : splitRule line text = .ok (parent, symbols, logprob) :=
          splitRule_ok hfields hnumber
        rw [Part.reader]
        split
        · next hpart =>
          rcases Reading.readLexical_cases hok with ⟨hlength, -⟩ | ⟨-, hrule⟩
          · exact Or.inl ⟨_, .lexical hpart hnumber hlength⟩
          · exact Or.inr hrule
        · next hpart =>
          rcases Reading.readRule_cases hok with ⟨hlength, -⟩ | ⟨-, hrule⟩
          · exact Or.inl ⟨_, .rule hpart hnumber hlength⟩
          · exact Or.inr hrule

/-- A line has one fault at most, and its rule is refused for it. -/
theorem reader_of_fault {part : Part} {e : ReadError} (h : Fault part line (Text.words text) e) :
    part.reader line text = .error e := by
  generalize hfields : Text.words text = fields at h
  cases h with
  | noArrow h => exact Part.reader_error (splitRule_noArrow (hfields ▸ h))
  | nothing => exact Part.reader_error (splitRule_nothing hfields)
  | number h => exact Part.reader_error (splitRule_number hfields h)
  | rule hpart hnumber h =>
      rw [Part.reader, if_neg hpart]
      rcases Reading.readRule_cases (splitRule_ok hfields hnumber) with ⟨-, herror⟩ | ⟨hlength, -⟩
      · exact herror
      · exact absurd hlength (not_or.2 h)
  | lexical hpart hnumber h =>
      rw [Part.reader, if_pos hpart]
      rcases Reading.readLexical_cases (splitRule_ok hfields hnumber) with
        ⟨-, herror⟩ | ⟨hlength, -⟩
      · exact herror
      · exact absurd hlength h

end

/-! ## Malformed lines -/

/-- The start symbol stands in the lines: the first one that counts is not the separator. -/
def HasStart (raws : List (List Char)) : Prop :=
  ∃ raw, raws.find? (fun raw => significant raw ≠ []) = some raw ∧
    significant raw ≠ lexiconSeparator.toList

/-- The part of a rule behind the lines. -/
def partAfter (raws : List (List Char)) : Part :=
  if ∃ raw ∈ raws, significant raw = lexiconSeparator.toList then .lexicon else .rules

/-- A line behind the start symbol that counts, is not the separator and has a fault.  Lines are
counted from one. -/
inductive MalformedAt (raws : List (List Char)) : Nat → ReadError → Prop where
  | intro {before after : List (List Char)} {raw : List Char} {e : ReadError}
      (hraws : raws = before ++ raw :: after) (hstart : HasStart before) (hentry : IsEntry raw)
      (hfault : Fault (partAfter before) (before.length + 1) (Text.words (significant raw)) e) :
      MalformedAt raws (before.length + 1) e

theorem MalformedAt.append {raws : List (List Char)} {line : Nat} {e : ReadError}
    (h : MalformedAt raws line e) (rest : List (List Char)) :
    MalformedAt (raws ++ rest) line e := by
  cases h with
  | intro hraws hstart hentry hfault =>
      exact .intro (by rw [hraws, List.append_assoc, List.cons_append]) hstart hentry hfault

theorem lexiconSeparator_ne_nil : lexiconSeparator.toList ≠ [] := by decide +kernel

theorem partAfter_ne_start (raws : List (List Char)) : partAfter raws ≠ .start := by
  unfold partAfter
  split <;> exact nofun

section

variable {raws : List (List Char)} {raw : List Char}

theorem partAfter_concat_separator (h : significant raw = lexiconSeparator.toList) :
    partAfter (raws ++ [raw]) = .lexicon :=
  if_pos ⟨raw, by simp, h⟩

theorem partAfter_concat (h : significant raw ≠ lexiconSeparator.toList) :
    partAfter (raws ++ [raw]) = partAfter raws := by
  unfold partAfter
  simp [or_and_right, exists_or, h]

theorem partAfter_of_blank (h : ∀ raw ∈ raws, significant raw = []) : partAfter raws = .rules :=
  if_neg fun ⟨raw, hraw, heq⟩ => lexiconSeparator_ne_nil (heq.symm.trans (h raw hraw))

/-- The start symbol stands in the last line, or before it. -/
theorem hasStart_concat (h : HasStart (raws ++ [raw])) :
    HasStart raws ∨ (∀ raw ∈ raws, significant raw = []) ∧ IsEntry raw := by
  obtain ⟨first, hfind, hne⟩ := h
  rw [List.find?_append] at hfind
  cases hbefore : raws.find? (fun raw => significant raw ≠ []) with
  | some found =>
      rw [hbefore, Option.some_or] at hfind
      exact Or.inl ⟨first, hbefore.trans hfind, hne⟩
  | none =>
      rw [hbefore, Option.none_or] at hfind
      have hlast := List.find?_some hfind
      obtain rfl := List.mem_singleton.1 (List.mem_of_find?_eq_some hfind)
      refine Or.inr ⟨fun raw hraw => ?_, by simpa using hlast, hne⟩
      simpa using List.find?_eq_none.1 hbefore raw hraw

end

/-! ## Reading up to the first fault -/

namespace Reading

variable {raws : List (List Char)} {raw : List Char}

theorem readLines_concat {state : Reading} {line : Nat} :
    state.readLines line (raws ++ [raw]) =
      state.readLines line raws >>= fun next => next.readLine (line + raws.length) raw := by
  rw [readLines_append]
  refine bind_congr fun next => ?_
  rw [readLines]
  exact bind_pure _

/-- Lines with a start symbol and without a fault are read, and leave the part that they tell. -/
theorem readLines_of_wellFormed (hstart : HasStart raws) (hwell : ∀ n e, ¬ MalformedAt raws n e) :
    ∃ state, ({} : Reading).readLines 1 raws = .ok state ∧ state.part = partAfter raws := by
  induction raws using List.reverseRecOn with
  | nil =>
      obtain ⟨raw, hfind, -⟩ := hstart
      cases hfind
  | append_singleton raws raw ih =>
      rw [readLines_concat]
      rcases hasStart_concat hstart with hbefore | ⟨hblank, hentry⟩
      · obtain ⟨state, hread, hpart⟩ := ih hbefore fun n e h => hwell n e (h.append _)
        rw [hread]
        show ∃ next, state.readLine _ raw = .ok next ∧ _
        have hnot : state.part ≠ .start := hpart ▸ partAfter_ne_start raws
        by_cases hraw : significant raw = []
        · rw [readLine_blank hraw, partAfter_concat (hraw ▸ lexiconSeparator_ne_nil.symm)]
          exact ⟨state, rfl, hpart⟩
        by_cases hseparator : significant raw = lexiconSeparator.toList
        · rw [readLine_separator hseparator, if_neg hnot, partAfter_concat_separator hseparator]
          exact ⟨_, rfl, rfl⟩
        · rw [readLine_rule ⟨hraw, hseparator⟩ hnot, partAfter_concat hseparator, ← hpart]
          rcases fault_or_ok state.part (1 + raws.length) (significant raw) with
            ⟨e, hfault⟩ | ⟨rule, hrule⟩
          · refine absurd (MalformedAt.intro rfl hbefore ⟨hraw, hseparator⟩ ?_) (hwell _ e)
            rwa [← hpart, Nat.add_comm]
          · rw [hrule]
            exact ⟨_, rfl, rfl⟩
      · rw [readLines_blank {} 1 hblank, partAfter_concat hentry.2, partAfter_of_blank hblank]
        exact ⟨_, readLine_first hentry rfl (1 + raws.length), rfl⟩

/-- At the first malformed line the reader stops, whatever follows. -/
theorem readLines_of_malformed {line : Nat} {e : ReadError} (h : MalformedAt raws line e)
    (hfirst : ∀ n < line, ∀ e, ¬ MalformedAt raws n e) :
    ({} : Reading).readLines 1 raws = .error e := by
  cases h with
  | @intro before after raw e hraws hstart hentry hfault =>
      have hwell : ∀ n e, ¬ MalformedAt before n e := by
        intro n e h
        have hbound : n ≤ before.length := by
          cases h with
          | intro hbefore _ _ _ =>
              rw [hbefore]
              simp
        exact hfirst n (by omega) e (hraws ▸ h.append _)
      obtain ⟨state, hread, hpart⟩ := readLines_of_wellFormed hstart hwell
      have hnot : state.part ≠ .start := hpart ▸ partAfter_ne_start before
      have hrefused := reader_of_fault hfault
      rw [hraws, readLines_append, hread]
      show state.readLines _ (raw :: after) = _
      rw [← hpart, Nat.add_comm] at hrefused
      rw [readLines, readLine_rule hentry hnot, hrefused]
      rfl

end Reading

/-! ## Whole texts -/

namespace Grammar

theorem parse_of_readLines_error {text : String} {e : ReadError}
    (h : ({} : Reading).readLines 1 (Text.lines text.toList) = .error e) :
    parse text = .error e := by
  rw [parse, h]
  rfl

/-- Where lines are malformed there is a first one, and its fault is the error. -/
theorem parse_of_malformed {text : String} {line : Nat} {e : ReadError}
    (h : MalformedAt (Text.lines text.toList) line e) :
    ∃ first e', first ≤ line ∧ MalformedAt (Text.lines text.toList) first e' ∧
      (∀ n < first, ∀ e'', ¬ MalformedAt (Text.lines text.toList) n e'') ∧
      parse text = .error e' := by
  classical
  have hexists : ∃ n, ∃ e, MalformedAt (Text.lines text.toList) n e := ⟨line, e, h⟩
  obtain ⟨e', hfirst⟩ := Nat.find_spec hexists
  have hbefore : ∀ n < Nat.find hexists, ∀ e'', ¬ MalformedAt (Text.lines text.toList) n e'' :=
    fun n hn e'' hn' => Nat.find_min hexists hn ⟨e'', hn'⟩
  exact ⟨Nat.find hexists, e', Nat.find_min' hexists ⟨e, h⟩, hfirst, hbefore,
    parse_of_readLines_error (Reading.readLines_of_malformed hfirst hbefore)⟩

/-- A text that is laid out anew is the same grammar, or has the same error but for the number of
its line, which is shifted by the lines put in before it.  The error of a text with malformed
lines is that of the first one and has its number, and an error of the grammar itself comes only
if no line is malformed. -/
theorem layout_and_first_fault (text : String) :
    (∀ text' f, Relaid text text' f →
      parse text' = (parse text).mapError (ReadError.renumber f)) ∧
    (∀ line e, MalformedAt (Text.lines text.toList) line e →
      ∃ first e', first ≤ line ∧ MalformedAt (Text.lines text.toList) first e' ∧
        (∀ n < first, ∀ e'', ¬ MalformedAt (Text.lines text.toList) n e'') ∧
        e'.line? = some first ∧ parse text = .error e') ∧
    (∀ e, parse text = .error (.grammar e) →
      ∀ line e', ¬ MalformedAt (Text.lines text.toList) line e') := by
  refine ⟨fun text' f h => parse_relaid h, fun line e h => ?first, fun e herror line e' h => ?none⟩
  case first =>
    obtain ⟨first, e', hle, hfirst, hbefore, hparse⟩ := parse_of_malformed h
    refine ⟨first, e', hle, hfirst, hbefore, ?_, hparse⟩
    cases hfirst with
    | intro hraws hstart hentry hfault => exact hfault.line?_eq
  case none =>
    obtain ⟨first, e'', -, hfirst, -, hparse⟩ := parse_of_malformed h
    rw [herror] at hparse
    cases hparse
    cases hfirst with
    | intro hraws hstart hentry hfault => cases hfault.line?_eq

/-- The error that a text is refused for. -/
def error? (text : String) : Option ReadError :=
  match parse text with
  | .ok _ => none
  | .error e => some e

theorem parse_of_error? {text : String} {e : ReadError} (h : error? text = some e) :
    parse text = .error e := by
  unfold error? at h
  split at h
  · cases h
  · next e' herror =>
    cases h
    exact herror

/-- The first of two malformed lines is reported.  Two lines put in at the front shift its number
by two, and a comment behind it changes nothing. -/
theorem layout_and_first_fault_shifted :
    let text := "S\nA -> B x\nC"
    let text' := "#\n\nS\nA -> B x#\nC"
    MalformedAt (Text.lines text.toList) 3 (.missingArrow 3) ∧
      (∃ first e, first ≤ 3 ∧ e.line? = some first ∧ parse text = .error e) ∧
      parse text' = .error (.invalidNumber 4 ['x']) ∧
      ∀ line e, ¬ MalformedAt (Text.lines "S\nA -> B 0".toList) line e := by
  intro text text'
  obtain ⟨hrelaid, hfirst, -⟩ := layout_and_first_fault text
  obtain ⟨-, -, hgrammar⟩ := layout_and_first_fault "S\nA -> B 0"
  have hlines : Text.lines text.toList = ["S".toList, "A -> B x".toList] ++ "C".toList :: [] := by
    decide +kernel
  have hmalformed : MalformedAt (Text.lines text.toList) 3 (.missingArrow 3) :=
    .intro hlines ⟨"S".toList, by decide +kernel, by decide +kernel⟩
      ⟨by decide +kernel, by decide +kernel⟩ (.noArrow (by decide +kernel))
  have hidle : Text.lines "#\n\nS\nA -> B x\nC".toList =
      [] ++ ([['#'], []] ++ Text.lines text.toList) := by decide +kernel
  have hinsert : Relaid text "#\n\nS\nA -> B x\nC" fun n => if n ≤ 0 then n else n + 2 :=
    .insert rfl hidle (by decide +kernel)
  have hbefore : Text.lines "#\n\nS\nA -> B x\nC".toList =
      [['#'], [], ['S']] ++ "A -> B x".toList :: [['C']] := by decide +kernel
  have hcomment : Relaid "#\n\nS\nA -> B x\nC" text' id :=
    .edit hbefore (by decide +kernel) (.comment "A -> B x".toList [])
  have hparse : parse text = .error (.invalidNumber 2 ['x']) := parse_of_error? (by decide +kernel)
  obtain ⟨first, e, hle, -, -, hline, herror⟩ := hfirst _ _ hmalformed
  refine ⟨hmalformed, ⟨first, e, hle, hline, herror⟩, ?_,
    hgrammar (.unusedStart "S") (parse_of_error? (by decide +kernel))⟩
  rw [hrelaid _ _ (hinsert.trans hcomment), hparse]
  rfl

end Grammar

end BestParse
