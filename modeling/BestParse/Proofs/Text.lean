import Mathlib.Data.List.Basic
import Mathlib.Data.List.TakeWhile
import BestParse.Text.Blank

/-!
# Cutting texts

What is put together with single spaces and line feeds is cut apart at them again.  A *field*
is a text that can stand between blanks on a line: it is not empty and holds neither a blank
nor the number sign of a comment.

* `words_intercalate`: fields with spaces between them are the words of their line.
* `lines_flatMap`: lines with a line feed behind each of them are the lines of their text.
* `trim_intercalate` and `not_mem_intercalate`: on a line of fields there is nothing to trim,
  no comment and no line feed.
* `of_mem_words`: words are not empty, have no blanks, and use the characters of their text.
-/

namespace BestParse
namespace Text

/-! ## Fields -/

/-- A text that stands between blanks on a line. -/
def IsField (cs : List Char) : Prop := cs ≠ [] ∧ ∀ c ∈ cs, isBlank c = false ∧ c ≠ '#'

instance (cs : List Char) : Decidable (IsField cs) :=
  decidable_of_iff ((!cs.isEmpty && cs.all fun c => !isBlank c && c ≠ '#') = true)
    (by simp [IsField])

/-! ## Words -/

theorem words_cons_of_isBlank {c : Char} (h : isBlank c = true) (cs : List Char) :
    words (c :: cs) = words cs := by
  rw [words.eq_def]
  exact if_pos h

/-- The first word ends where the text ends or a blank stands. -/
theorem words_append {w rest : List Char} (hne : w ≠ []) (hw : ∀ c ∈ w, isBlank c = false)
    (hrest : ∀ c ∈ rest.head?, isBlank c = true) : words (w ++ rest) = w :: words rest := by
  induction w with
  | nil => exact absurd rfl hne
  | cons c w ih =>
      have hc := hw c List.mem_cons_self
      cases w with
      | nil =>
          cases rest with
          | nil => simp [words, hc]
          | cons d rest => simp [words, hc, hrest d rfl]
      | cons d w =>
          have hd := hw d (List.mem_cons_of_mem _ List.mem_cons_self)
          have htail := ih (List.cons_ne_nil _ _) fun e he => hw e (List.mem_cons_of_mem _ he)
          rw [List.cons_append] at htail
          rw [List.cons_append, List.cons_append, words, if_neg (by simp [hc]),
            if_neg (by simp [hd]), htail]

theorem words_ne_nil {c : Char} (hc : ¬ isBlank c = true) (cs : List Char) :
    words (c :: cs) ≠ [] := by
  unfold words
  rw [if_neg hc]
  split
  · exact List.cons_ne_nil _ _
  · split
    · exact List.cons_ne_nil _ _
    · split <;> exact List.cons_ne_nil _ _

/-- No word goes on over a blank. -/
theorem words_append_cons {b : Char} (hb : isBlank b = true) (cs ds : List Char) :
    words (cs ++ b :: ds) = words cs ++ words ds := by
  fun_induction words cs with
  | case1 => exact words_cons_of_isBlank hb ds
  | case2 c cs hc ih => rw [List.cons_append, words_cons_of_isBlank hc, ih]
  | case3 c hc => simp [words, hc, hb]
  | case4 c hc d cs hd ih =>
      rw [List.cons_append, List.cons_append, words, if_neg hc]
      simp only [hd, if_true, List.cons_append] at ih ⊢
      rw [ih]
  | case5 c hc d cs hd hnil ih => exact absurd hnil (words_ne_nil hd cs)
  | case6 c hc d cs hd first others hwords ih =>
      rw [hwords, List.cons_append] at ih
      rw [List.cons_append, List.cons_append, words, if_neg hc]
      simp only [hd, Bool.false_eq_true, if_false]
      rw [ih, hwords]
      rfl

/-- Fields with single spaces between them are the words of their line. -/
theorem words_intercalate {fields : List (List Char)} (h : ∀ f ∈ fields, IsField f) :
    words (List.intercalate [' '] fields) = fields := by
  induction fields with
  | nil => rfl
  | cons f fields ih =>
      obtain ⟨hne, hf⟩ := h f List.mem_cons_self
      have hrest := ih fun f' hf' => h f' (List.mem_cons_of_mem _ hf')
      cases fields with
      | nil =>
          have hend : words (f ++ []) = f :: words [] :=
            words_append hne (fun c hc => (hf c hc).1) nofun
          rw [List.append_nil] at hend
          rw [List.intercalate_singleton, hend]
          rfl
      | cons f' fields =>
          rw [List.intercalate_cons_cons, List.append_assoc,
            words_append hne (fun c hc => (hf c hc).1) fun c hc => by cases hc; decide,
            List.singleton_append, words_cons_of_isBlank (by decide), hrest]

/-- Words are not empty, have no blanks, and use the characters of their text. -/
theorem of_mem_words {cs w : List Char} (hw : w ∈ words cs) :
    w ≠ [] ∧ ∀ c ∈ w, isBlank c = false ∧ c ∈ cs := by
  have hsingle : ∀ {c : Char} {cs : List Char}, ¬ isBlank c = true →
      [c] ≠ [] ∧ ∀ d ∈ [c], isBlank d = false ∧ d ∈ c :: cs := by
    intro c cs hc
    refine ⟨List.cons_ne_nil _ _, fun d hd => ?_⟩
    rw [List.mem_singleton.1 hd]
    exact ⟨eq_false_of_ne_true hc, List.mem_cons_self⟩
  have hlater : ∀ {c : Char} {cs w : List Char}, (w ≠ [] ∧ ∀ d ∈ w, isBlank d = false ∧ d ∈ cs) →
      w ≠ [] ∧ ∀ d ∈ w, isBlank d = false ∧ d ∈ c :: cs := fun h =>
    ⟨h.1, fun d hd => (h.2 d hd).imp_right (List.mem_cons_of_mem _)⟩
  fun_induction words cs generalizing w with
  | case1 => cases hw
  | case2 c cs hc ih => exact hlater (ih hw)
  | case3 c hc => exact List.mem_singleton.1 hw ▸ hsingle hc
  | case4 c hc d cs hd ih =>
      rcases List.mem_cons.1 hw with rfl | hw
      · exact hsingle hc
      · exact hlater (ih hw)
  | case5 c hc d cs hd hnil ih =>
      rw [hnil] at hw
      exact List.mem_singleton.1 hw ▸ hsingle hc
  | case6 c hc d cs hd first others hwords ih =>
      rw [hwords] at ih hw
      rcases List.mem_cons.1 hw with rfl | hw
      · refine ⟨List.cons_ne_nil _ _, fun e he => ?_⟩
        rcases List.mem_cons.1 he with rfl | he
        · exact ⟨eq_false_of_ne_true hc, List.mem_cons_self⟩
        · exact (hlater (ih List.mem_cons_self)).2 e he
      · exact hlater (ih (List.mem_cons_of_mem _ hw))

/-! ## Lines -/

theorem lines_append {l : List Char} (hl : '\n' ∉ l) (rest : List Char) :
    lines (l ++ '\n' :: rest) = l :: lines rest := by
  induction l with
  | nil => simp [lines]
  | cons c l ih =>
      have hc : c ≠ '\n' := fun heq => hl (heq ▸ List.mem_cons_self)
      rw [List.cons_append, lines, if_neg hc, ih fun hmem => hl (List.mem_cons_of_mem _ hmem)]

/-- Lines with a line feed behind each of them are the lines of their text; nothing follows the
last line feed. -/
theorem lines_flatMap {ls : List (List Char)} (h : ∀ l ∈ ls, '\n' ∉ l) :
    lines (ls.flatMap (· ++ ['\n'])) = ls ++ [[]] := by
  induction ls with
  | nil => rfl
  | cons l ls ih =>
      rw [List.flatMap_cons, List.append_assoc, List.singleton_append,
        lines_append (h l List.mem_cons_self), ih fun l' hl' => h l' (List.mem_cons_of_mem _ hl'),
        List.cons_append]

/-! ## Trimming -/

theorem trim_eq_self {cs : List Char} (hhead : ∀ c ∈ cs.head?, isBlank c = false)
    (hlast : ∀ c ∈ cs.getLast?, isBlank c = false) : trim cs = cs := by
  have hkeep : ∀ ds : List Char, (∀ c ∈ ds.head?, isBlank c = false) →
      ds.dropWhile isBlank = ds := by
    intro ds hds
    cases ds with
    | nil => rfl
    | cons d ds => simp [hds d rfl]
  rw [trim, hkeep cs hhead, hkeep cs.reverse (by simpa using hlast), List.reverse_reverse]

theorem mem_of_mem_trim {cs : List Char} {c : Char} (h : c ∈ trim cs) : c ∈ cs := by
  rw [trim, List.mem_reverse] at h
  exact (List.dropWhile_sublist _).mem
    (List.mem_reverse.1 ((List.dropWhile_sublist _).mem h))

/-- All characters are blank. -/
def Blanks (cs : List Char) : Prop := ∀ c ∈ cs, isBlank c = true

theorem dropWhile_blanks {b : List Char} (hb : Blanks b) (cs : List Char) :
    (b ++ cs).dropWhile isBlank = cs.dropWhile isBlank := by
  induction b with
  | nil => rfl
  | cons c b ih =>
      rw [List.cons_append, List.dropWhile_cons_of_pos (hb c List.mem_cons_self),
        ih fun d hd => hb d (List.mem_cons_of_mem c hd)]

theorem trim_blanks {b : List Char} (hb : Blanks b) : trim b = [] := by
  have hall := dropWhile_blanks hb []
  rw [List.append_nil] at hall
  rw [trim, hall]
  rfl

/-- Blanks at the ends do not count. -/
theorem trim_append_blanks {b b' : List Char} (hb : Blanks b) (hb' : Blanks b') (cs : List Char) :
    trim (b ++ cs ++ b') = trim cs := by
  rw [trim, List.append_assoc, dropWhile_blanks hb, trim, List.dropWhile_append]
  split
  · next hempty =>
    -- Only blanks are left, and they go with the second cut.
    have hblank := dropWhile_blanks hb' []
    rw [List.append_nil] at hblank
    rw [List.isEmpty_iff.1 hempty, hblank]
    rfl
  · have hreverse : Blanks b'.reverse := fun c hc => hb' c (List.mem_reverse.1 hc)
    rw [List.reverse_append, dropWhile_blanks hreverse]

/-- Trimming cuts blanks off at both ends. -/
theorem exists_trim (cs : List Char) :
    ∃ b b', Blanks b ∧ Blanks b' ∧ cs = b ++ trim cs ++ b' := by
  have hcut : ∀ ds : List Char, Blanks (ds.takeWhile isBlank) := fun ds c hc =>
    by simpa using (List.mem_takeWhile_imp hc)
  refine ⟨cs.takeWhile isBlank, ((cs.dropWhile isBlank).reverse.takeWhile isBlank).reverse,
    hcut cs, fun c hc => hcut _ c (List.mem_reverse.1 hc), ?_⟩
  rw [trim, List.append_assoc, ← List.reverse_append, List.takeWhile_append_dropWhile,
    List.reverse_reverse, List.takeWhile_append_dropWhile]

theorem dropWhile_append_cons {c : Char} (hc : isBlank c = false) (cs ds : List Char) :
    ∃ rest, (cs ++ c :: ds).dropWhile isBlank = rest ++ c :: ds := by
  induction cs with
  | nil => exact ⟨[], List.dropWhile_cons_of_neg (Bool.not_eq_true _ ▸ hc)⟩
  | cons d cs ih =>
      cases hd : isBlank d with
      | true => rwa [List.cons_append, List.dropWhile_cons_of_pos hd]
      | false =>
          exact ⟨d :: cs, List.dropWhile_cons_of_neg (Bool.not_eq_true _ ▸ hd)⟩

/-- What stands between characters that are not blank stays there. -/
theorem trim_append_cons {c d : Char} (hc : isBlank c = false) (hd : isBlank d = false)
    (cs gap ds : List Char) :
    ∃ first last, trim (cs ++ c :: (gap ++ d :: ds)) = first ++ c :: (gap ++ d :: last) := by
  obtain ⟨first, hfirst⟩ := dropWhile_append_cons hc cs (gap ++ d :: ds)
  obtain ⟨last, hlast⟩ := dropWhile_append_cons hd ds.reverse (gap.reverse ++ c :: first.reverse)
  have hreverse : (first ++ c :: (gap ++ d :: ds)).reverse =
      ds.reverse ++ d :: (gap.reverse ++ c :: first.reverse) := by simp
  refine ⟨first, last.reverse, ?_⟩
  rw [trim, hfirst, hreverse, hlast]
  simp

theorem words_blanks_append {b : List Char} (hb : Blanks b) (cs : List Char) :
    words (b ++ cs) = words cs := by
  induction b with
  | nil => rfl
  | cons c b ih =>
      rw [List.cons_append, words_cons_of_isBlank (hb c List.mem_cons_self),
        ih fun d hd => hb d (List.mem_cons_of_mem c hd)]

/-- Between words there may stand any blanks. -/
theorem words_append_blanks {b : List Char} (hb : Blanks b) (hne : b ≠ []) (cs ds : List Char) :
    words (cs ++ (b ++ ds)) = words cs ++ words ds := by
  cases b with
  | nil => exact absurd rfl hne
  | cons c b =>
      rw [List.cons_append, words_append_cons (hb c List.mem_cons_self),
        words_blanks_append fun d hd => hb d (List.mem_cons_of_mem c hd)]

/-- Trimming leaves the words. -/
theorem words_trim (cs : List Char) : words (trim cs) = words cs := by
  obtain ⟨b, b', hb, hb', heq⟩ := exists_trim cs
  have hwords : words cs = words (trim cs ++ b') :=
    (congrArg words heq).trans (by rw [List.append_assoc, words_blanks_append hb])
  cases b' with
  | nil => rw [hwords, List.append_nil]
  | cons c b' =>
      have hend := words_append_blanks hb' (List.cons_ne_nil _ _) (trim cs) []
      rw [List.append_nil] at hend
      rw [hwords, hend]
      exact (List.append_nil _).symm

/-- A line of fields begins and ends with a character of a field. -/
theorem ends_intercalate {fields : List (List Char)} (h : ∀ f ∈ fields, IsField f) :
    (∀ c ∈ (List.intercalate [' '] fields).head?, isBlank c = false) ∧
      ∀ c ∈ (List.intercalate [' '] fields).getLast?, isBlank c = false := by
  induction fields with
  | nil => exact ⟨nofun, nofun⟩
  | cons f fields ih =>
      obtain ⟨hne, hf⟩ := h f List.mem_cons_self
      cases fields with
      | nil =>
          rw [List.intercalate_singleton]
          exact ⟨fun c hc => (hf c (List.mem_of_mem_head? hc)).1,
            fun c hc => (hf c (List.mem_of_mem_getLast? hc)).1⟩
      | cons f' fields =>
          have hlast := (ih fun f hf => h f (List.mem_cons_of_mem _ hf)).2
          have hrest : List.intercalate [' '] (f' :: fields) ≠ [] := by
            intro hnil
            have hwords := words_intercalate fun f hf => h f (List.mem_cons_of_mem _ hf)
            rw [hnil] at hwords
            exact absurd hwords (List.cons_ne_nil _ _).symm
          rw [List.intercalate_cons_cons]
          constructor
          · rw [List.append_assoc, List.head?_append_of_ne_nil _ hne]
            exact fun c hc => (hf c (List.mem_of_mem_head? hc)).1
          · rw [List.getLast?_append_of_ne_nil _ hrest]
            exact hlast

/-- There is nothing to trim on a line of fields. -/
theorem trim_intercalate {fields : List (List Char)} (h : ∀ f ∈ fields, IsField f) :
    trim (List.intercalate [' '] fields) = List.intercalate [' '] fields :=
  trim_eq_self (ends_intercalate h).1 (ends_intercalate h).2

theorem mem_intercalate {fields : List (List Char)} {c : Char}
    (hc : c ∈ List.intercalate [' '] fields) : c = ' ' ∨ ∃ f ∈ fields, c ∈ f := by
  induction fields with
  | nil => cases hc
  | cons f fields ih =>
      cases fields with
      | nil =>
          rw [List.intercalate_singleton] at hc
          exact Or.inr ⟨f, List.mem_cons_self, hc⟩
      | cons f' fields =>
          rw [List.intercalate_cons_cons, List.append_assoc] at hc
          rcases List.mem_append.1 hc with hc | hc
          · exact Or.inr ⟨f, List.mem_cons_self, hc⟩
          · rcases List.mem_cons.1 hc with rfl | hc
            · exact Or.inl rfl
            · exact (ih hc).imp_right fun ⟨g, hg, hcg⟩ => ⟨g, List.mem_cons_of_mem _ hg, hcg⟩

/-- A line of fields is one line without a comment. -/
theorem not_mem_intercalate {fields : List (List Char)} (h : ∀ f ∈ fields, IsField f) :
    '\n' ∉ List.intercalate [' '] fields ∧ '#' ∉ List.intercalate [' '] fields := by
  constructor
  · intro hc
    rcases mem_intercalate hc with heq | ⟨f, hf, hcf⟩
    · exact absurd heq (by decide)
    · exact absurd ((h f hf).2 _ hcf).1 (by decide)
  · intro hc
    rcases mem_intercalate hc with heq | ⟨f, hf, hcf⟩
    · exact absurd heq (by decide)
    · exact ((h f hf).2 _ hcf).2 rfl

/-- Digits are not blank. -/
theorem isBlank_of_isDigit {c : Char} (h : c.isDigit = true) : isBlank c = false := by
  have hrange : 48 ≤ c.toNat ∧ c.toNat ≤ 57 := Char.isDigit_iff_toNat.1 h
  simp only [isBlank, inRanges, blankRanges, List.any_cons, List.any_nil, Bool.or_eq_false_iff,
    Bool.and_eq_false_iff, decide_eq_false_iff_not, and_true]
  omega

end Text
end BestParse
