import Mathlib.Data.List.TakeWhile
import Mathlib.Tactic.Ring
import BestParse.Score.Decimal
import BestParse.Proofs.Score.Order

/-!
# Scores read back

The text of a score is read as the same score (`Score.parse?_chars`), and its characters are
digits, points and signs, or those of a name (`Score.chars_of_isFinite`).

The digits of a finite score are chosen so that they round to it (`shortest_readsBack`).  What
is printed and read again is not the same decimal, since zeros are put around the digits and
dropped behind them, but it has the same value (`positional_eq`).  Rounding looks at the value
only (`roundRatio_eq_of_mul_eq`).
-/

namespace BestParse

/-! ## Rounding depends on the value -/

theorem nearestWhole_mul_mul_right (num den : Nat) {k : Nat} (hk : 0 < k) :
    nearestWhole (num * k) (den * k) = nearestWhole num den := by
  simp only [nearestWhole, Nat.mul_div_mul_right _ _ hk, Nat.mul_mod_mul_right, ← Nat.mul_assoc,
    Nat.mul_lt_mul_right hk, Nat.mul_left_inj (Nat.ne_of_gt hk)]

theorem roundRatio_mul_mul_right (num den : Nat) {k : Nat} (hk : 0 < k) :
    roundRatio (num * k) (den * k) = roundRatio num den := by
  unfold roundRatio
  dsimp only
  rw [Nat.mul_div_mul_right _ _ hk, Nat.mul_right_comm den k, nearestWhole_mul_mul_right _ _ hk]

/-- Equal ratios are rounded alike. -/
theorem roundRatio_eq_of_mul_eq {a b c d : Nat} (hb : 0 < b) (hd : 0 < d) (h : a * d = c * b) :
    roundRatio a b = roundRatio c d := by
  calc roundRatio a b = roundRatio (a * d) (b * d) := (roundRatio_mul_mul_right a b hd).symm
    _ = roundRatio (c * b) (d * b) := by rw [h, Nat.mul_comm b d]
    _ = roundRatio c d := roundRatio_mul_mul_right c d hb

/-- What is less than half a unit is rounded to nothing. -/
theorem roundRatio_eq_zero {num den : Nat} (h : 2 * num < den) : roundRatio num den = 0 := by
  have hdiv : num / den = 0 := Nat.div_eq_of_lt (by omega)
  unfold roundRatio
  dsimp only
  rw [hdiv, show gridSpacing 0 = 1 by decide, Nat.mul_one, Nat.mul_one]
  unfold nearestWhole
  dsimp only
  rw [hdiv, Nat.mod_eq_of_lt (by omega), if_pos (Or.inl h)]

/-- A ratio is not rounded below a power of two. -/
theorem two_pow_le_roundRatio {num den k : Nat} (hden : 0 < den) (h : 2 ^ k * den ≤ num) :
    2 ^ k ≤ roundRatio num den := by
  have hle : 2 ^ k ≤ num / den := (Nat.le_div_iff_mul_le hden).2 h
  have hne : num / den ≠ 0 := Nat.ne_of_gt (Nat.lt_of_lt_of_le (Nat.two_pow_pos k) hle)
  have hlog : k ≤ (num / den).log2 := (Nat.le_log2 hne).2 hle
  have hdvd : gridSpacing (num / den) ∣ 2 ^ (num / den).log2 := Nat.pow_dvd_pow 2 (by omega)
  unfold roundRatio
  dsimp only
  calc 2 ^ k ≤ 2 ^ (num / den).log2 := Nat.pow_le_pow_right (by decide) hlog
    _ = 2 ^ (num / den).log2 / gridSpacing (num / den) * gridSpacing (num / den) :=
        (Nat.div_mul_cancel hdvd).symm
    _ ≤ num / den / gridSpacing (num / den) * gridSpacing (num / den) :=
        Nat.mul_le_mul_right _ (Nat.div_le_div_right (Nat.log2_self_le hne))
    _ = num / (den * gridSpacing (num / den)) * gridSpacing (num / den) := by
        rw [Nat.div_div_eq_div_mul]
    _ ≤ _ := Nat.mul_le_mul_right _ (div_le_nearestWhole _ _)

theorem Score.ofUnits_congr (negative : Bool) {num den num' den' : Nat}
    (h : roundRatio num den = roundRatio num' den') :
    ofUnits negative num den = ofUnits negative num' den' := by
  simp only [ofUnits, h]

/-- A score is the one nearest to its units. -/
theorem Score.ofWholeUnits_eq {units : Int} (fits : Fits units.natAbs) :
    ofWholeUnits units = .finite units fits := by
  unfold ofWholeUnits ofUnits
  simp only [fits.1, fits.2, dite_true]
  by_cases hneg : units < 0
  · simp only [hneg, decide_true, if_true]
    rw [if_neg (by omega)]
    congr 1
    omega
  · simp only [hneg, decide_false, Bool.false_eq_true, if_false]
    congr 1
    omega

theorem two_pow_mul_le_roundRatio {num den j k : Nat} (hden : 0 < den)
    (h : 2 ^ j * 2 ^ k * den ≤ num) : 2 ^ j * 2 ^ k ≤ roundRatio num den := by
  rw [← Nat.pow_add] at h ⊢
  exact two_pow_le_roundRatio hden h

namespace Decimal

theorem denominator_pos (d : Decimal) : 0 < d.denominator := Nat.pow_pos (by decide)

/-! ## The digits chosen -/

theorem onGrid_readsBack {units : Nat} {exponent : Int} {d : Decimal}
    (h : onGrid units exponent = some d) : d.readsBack units = true := by
  -- Unfolded as a function: over its arguments the tests in it would be computed.
  have hunfold : onGrid = onGrid := rfl
  conv at hunfold => lhs; delta onGrid
  have hchoice := (congrFun (congrFun hunfold units) exponent).trans h
  extract_lets num den low high at hchoice
  clear_value low high num den
  split at hchoice
  · next hlow hhigh =>
    rw [← Option.some.inj hchoice]
    split
    · exact hlow
    · exact hhigh
  · next hlow hhigh =>
    rw [← Option.some.inj hchoice]
    exact hlow
  · next hlow hhigh =>
    rw [← Option.some.inj hchoice]
    exact hhigh
  · cases hchoice

theorem numerator_of_places (digits k : Nat) :
    (⟨digits, -(k : Int)⟩ : Decimal).numerator = digits * Nat.pow 2 149 := by
  have hone : Nat.pow 10 (-(k : Int)).toNat = 1 := by
    rw [show (-(k : Int)).toNat = 0 by omega, Nat.pow_eq, Nat.pow_zero]
  calc (⟨digits, -(k : Int)⟩ : Decimal).numerator
      = digits * Nat.pow 10 (-(k : Int)).toNat * Nat.pow 2 149 := by rw [numerator]
    _ = digits * Nat.pow 2 149 := by rw [hone, Nat.mul_one]

theorem denominator_of_places (digits k : Nat) :
    (⟨digits, -(k : Int)⟩ : Decimal).denominator = Nat.pow 10 k := by
  rw [denominator, show (- -(k : Int)).toNat = k by omega]

theorem exact_ratio (units k : Nat) :
    units * Nat.pow 5 k * Nat.pow 2 k * 1 = units * Nat.pow 10 k := by
  have hten : (10 : Nat) ^ k = 5 ^ k * 2 ^ k := Nat.mul_pow 5 2 k
  simp only [Nat.pow_eq, hten]
  ring

theorem exact_readsBack {units : Nat} (h : Fits units) : (exact units).readsBack units = true := by
  have hround : roundRatio (units * Nat.pow 5 149 * Nat.pow 2 149) (Nat.pow 10 149) = units :=
    (roundRatio_eq_of_mul_eq (Nat.pow_pos (by decide)) Nat.one_pos (exact_ratio units 149)).trans
      h.1
  rw [← numerator_of_places (units * Nat.pow 5 149) 149,
    ← denominator_of_places (units * Nat.pow 5 149) 149] at hround
  exact decide_eq_true hround

/-- The digits that are printed round to the magnitude. -/
theorem shortest_readsBack {units : Nat} (h : Fits units) :
    (shortest units).readsBack units = true := by
  unfold shortest
  cases hfound : (List.range 9).findSome? fun (i : Nat) => onGrid units (scale units - 1 - i) with
  | none => exact exact_readsBack h
  | some d =>
      obtain ⟨i, -, hgrid⟩ := List.exists_of_findSome?_eq_some hfound
      exact onGrid_readsBack hgrid

/-! ## The value of digits -/

theorem valueOf_append (cs ds : List Char) :
    valueOf (cs ++ ds) = 10 ^ ds.length * valueOf cs + valueOf ds := by
  change Nat.ofDigitChars 10 (cs ++ ds) 0 = _
  rw [Nat.ofDigitChars_append, Nat.ofDigitChars_eq_ofDigitChars_zero]
  rfl

theorem valueOf_replicate_zero (n : Nat) : valueOf (List.replicate n '0') = 0 := by
  change Nat.ofDigitChars 10 _ 0 = 0
  rw [Nat.ofDigitChars_replicate_zero, Nat.mul_zero]

theorem valueOf_toDigits (n : Nat) : valueOf (Nat.toDigits 10 n) = n :=
  Nat.ofDigitChars_ten_toDigits

/-- Zeros at the end are dropped, and nothing else. -/
theorem exists_zeros (cs : List Char) :
    ∃ n, cs = dropTrailingZeros cs ++ List.replicate n '0' := by
  have hzeros : ∀ c ∈ cs.reverse.takeWhile (· = '0'), c = '0' := fun c hc => by
    simpa using List.mem_takeWhile_imp hc
  refine ⟨(cs.reverse.takeWhile (· = '0')).length, ?_⟩
  have hsplit := congrArg List.reverse
    (List.takeWhile_append_dropWhile (p := (· = '0')) (l := cs.reverse))
  rw [List.reverse_append, List.reverse_reverse, List.eq_replicate_of_mem hzeros,
    List.reverse_replicate] at hsplit
  rw [dropTrailingZeros]
  simpa using hsplit.symm

/-- The layout of a decimal: digits before the point and digits behind it, which together
have its value.  Without digits behind it there is no point. -/
theorem positional_eq (d : Decimal) : ∃ whole fraction : List Char,
    d.positional = (if fraction.isEmpty then whole else whole ++ '.' :: fraction) ∧
    whole ≠ [] ∧ (∀ c ∈ whole, c.isDigit = true) ∧ (∀ c ∈ fraction, c.isDigit = true) ∧
    valueOf (whole ++ fraction) * 10 ^ (-d.exponent).toNat =
      d.digits * 10 ^ d.exponent.toNat * 10 ^ fraction.length := by
  have hdigits : ∀ c ∈ Nat.toDigits 10 d.digits, c.isDigit = true := fun c hc =>
    Nat.isDigit_of_mem_toDigits (by decide) (Nat.le_refl 10) hc
  have hzeros : ∀ (n : Nat) (c : Char), c ∈ List.replicate n '0' → c.isDigit = true := by
    intro n c hc
    rw [List.eq_of_mem_replicate hc]
    decide
  unfold positional
  dsimp only
  split
  · next hexponent =>
    refine ⟨Nat.toDigits 10 d.digits ++ List.replicate d.exponent.toNat '0', [], rfl, ?_, ?_,
      nofun, ?_⟩
    · simp [Nat.toDigits_ne_nil]
    · intro c hc
      rcases List.mem_append.1 hc with hc | hc
      · exact hdigits c hc
      · exact hzeros _ c hc
    · rw [List.append_nil, valueOf_append, valueOf_toDigits, valueOf_replicate_zero,
        List.length_replicate, show (-d.exponent).toNat = 0 by omega]
      simp [Nat.mul_comm]
  · next hexponent =>
    generalize hplaces : (-d.exponent).toNat = places
    generalize hpadded : List.replicate (places + 1 - (Nat.toDigits 10 d.digits).length) '0' ++
      Nat.toDigits 10 d.digits = padded
    have hvalue : valueOf padded = d.digits := by
      rw [← hpadded, valueOf_append, valueOf_replicate_zero, valueOf_toDigits, Nat.mul_zero,
        Nat.zero_add]
    have hlength : places < padded.length := by
      rw [← hpadded, List.length_append, List.length_replicate]
      omega
    have hall : ∀ c ∈ padded, c.isDigit = true := by
      intro c hc
      rw [← hpadded] at hc
      rcases List.mem_append.1 hc with hc | hc
      · exact hzeros _ c hc
      · exact hdigits c hc
    obtain ⟨n, htail⟩ := exists_zeros (padded.drop (padded.length - places))
    generalize hfraction : dropTrailingZeros (padded.drop (padded.length - places)) = fraction
    rw [hfraction] at htail
    refine ⟨padded.take (padded.length - places), fraction, rfl, ?_, ?_, ?_, ?_⟩
    · intro hnil
      have hzero := congrArg List.length hnil
      rw [List.length_take, List.length_nil] at hzero
      omega
    · exact fun c hc => hall c (List.mem_of_mem_take hc)
    · intro c hc
      refine hall c (List.mem_of_mem_drop (i := padded.length - places) ?_)
      rw [htail]
      exact List.mem_append_left _ hc
    · have hcount : fraction.length + n = places := by
        have hdrop := congrArg List.length htail
        rw [List.length_drop, List.length_append, List.length_replicate] at hdrop
        omega
      have hscaled : 10 ^ n * valueOf (padded.take (padded.length - places) ++ fraction) =
          d.digits := by
        have hjoin := List.take_append_drop (padded.length - places) padded
        rw [htail, ← List.append_assoc] at hjoin
        rw [← hvalue, ← congrArg valueOf hjoin, valueOf_append _ (List.replicate n '0'),
          valueOf_replicate_zero, List.length_replicate, Nat.add_zero]
      rw [← hscaled, ← hcount, show d.exponent.toNat = 0 by omega, Nat.pow_add]
      ring

/-! ## Reading digits -/

theorem takeWhile_isDigit {cs : List Char} (rest : List Char) (hcs : ∀ c ∈ cs, c.isDigit = true)
    (hrest : ∀ c ∈ rest.head?, c.isDigit = false) :
    (cs ++ rest).takeWhile Char.isDigit = cs ∧ (cs ++ rest).dropWhile Char.isDigit = rest := by
  rw [List.takeWhile_append_of_pos hcs, List.dropWhile_append_of_pos hcs]
  cases rest with
  | nil => simp
  | cons c rest => simp [hrest c rfl]

/-- Digits around a point are read as they stand. -/
theorem parse?_point {whole fraction : List Char} (hne : whole ≠ [])
    (hwhole : ∀ c ∈ whole, c.isDigit = true) (hfraction : ∀ c ∈ fraction, c.isDigit = true) :
    parse? (if fraction.isEmpty then whole else whole ++ '.' :: fraction) =
      some ⟨valueOf (whole ++ fraction), -(fraction.length : Int)⟩ := by
  cases fraction with
  | nil =>
      obtain ⟨htake, hdrop⟩ := takeWhile_isDigit [] hwhole nofun
      rw [List.append_nil] at htake hdrop
      simp [parse?, htake, hdrop, hne]
  | cons c cs =>
      obtain ⟨htake, hdrop⟩ := takeWhile_isDigit ('.' :: c :: cs) hwhole fun c hc => by
        cases hc
        decide
      obtain ⟨htake', hdrop'⟩ := takeWhile_isDigit [] hfraction nofun
      rw [List.append_nil] at htake' hdrop'
      rw [List.isEmpty_cons, if_neg Bool.false_ne_true]
      simp only [parse?, htake, hdrop, htake', hdrop']
      simp

/-! ## Rounding what was read -/

/-- A number other than zero has the size that its digits say. -/
theorem ten_pow_bounds {value : Nat} (hvalue : value ≠ 0) :
    10 ^ ((Nat.toDigits 10 value).length - 1) ≤ value ∧
      value < 10 ^ (Nat.toDigits 10 value).length := by
  have hpos := Nat.length_toDigits_pos (b := 10) (n := value)
  refine ⟨Nat.le_of_not_lt fun hless => ?_,
    (Nat.length_toDigits_le_iff (by decide) hpos).1 (Nat.le_refl _)⟩
  rcases Nat.eq_or_lt_of_le hpos with hone | hmore
  · rw [← hone] at hless
    exact hvalue (Nat.lt_one_iff.1 hless)
  · have hle := (Nat.length_toDigits_le_iff (by decide) (Nat.sub_pos_of_lt hmore)).2 hless
    omega

/-- The bounds beyond which no power of ten is computed are never met by digits that round to
a magnitude. -/
theorem toScore_eq_ofUnits (negative : Bool) {value places units : Nat}
    (hround : roundRatio (value * 2 ^ 149) (10 ^ places) = units) (hpos : units ≠ 0)
    (hlt : units < overflowBound) :
    toScore negative ⟨value, -(places : Int)⟩ =
      Score.ofUnits negative (value * 2 ^ 149) (10 ^ places) := by
  have hvalue : value ≠ 0 := by
    rintro rfl
    rw [Nat.zero_mul, roundRatio_eq_zero (by simp)] at hround
    exact hpos hround.symm
  obtain ⟨hlower, hupper⟩ := ten_pow_bounds hvalue
  generalize hlength : (Nat.toDigits 10 value).length = length at hlower hupper
  have hsmall : ¬ ((length : Int) + -(places : Int) < -60) := by
    intro hfar
    refine hpos (hround.symm.trans (roundRatio_eq_zero ?_))
    calc 2 * (value * 2 ^ 149) = value * 2 ^ 150 := by ring
      _ < 10 ^ length * 2 ^ 150 := Nat.mul_lt_mul_of_pos_right hupper (Nat.two_pow_pos _)
      _ ≤ 10 ^ length * 10 ^ 61 := Nat.mul_le_mul_left _ (by decide)
      _ = 10 ^ (length + 61) := (Nat.pow_add 10 length 61).symm
      _ ≤ 10 ^ places := Nat.pow_le_pow_right (by decide) (by omega)
  have hlarge : ¬ (60 < (length : Int) + -(places : Int)) := by
    intro hfar
    refine absurd hlt (Nat.not_lt.2 ?_)
    rw [← hround]
    refine two_pow_mul_le_roundRatio (Nat.pow_pos (by decide)) ?_
    calc 2 ^ 128 * 2 ^ 149 * 10 ^ places = 2 ^ 128 * 10 ^ places * 2 ^ 149 :=
          Nat.mul_right_comm _ _ _
      _ ≤ 10 ^ 60 * 10 ^ places * 2 ^ 149 :=
          Nat.mul_le_mul_right _ (Nat.mul_le_mul_right _ (by decide))
      _ = 10 ^ (60 + places) * 2 ^ 149 := by rw [Nat.pow_add]
      _ ≤ 10 ^ (length - 1) * 2 ^ 149 :=
          Nat.mul_le_mul_right _ (Nat.pow_le_pow_right (by decide) (by omega))
      _ ≤ value * 2 ^ 149 := Nat.mul_le_mul_right _ hlower
  unfold toScore
  dsimp only
  rw [hlength, if_neg (not_or.2 ⟨hvalue, hsmall⟩), if_neg hlarge, numerator_of_places,
    denominator_of_places]
  rfl

/-- The layout of a decimal is read as its value. -/
theorem parse?_positional (d : Decimal) : ∃ value places : Nat,
    parse? d.positional = some ⟨value, -(places : Int)⟩ ∧
      roundRatio (value * 2 ^ 149) (10 ^ places) = roundRatio d.numerator d.denominator := by
  obtain ⟨whole, fraction, hlayout, hne, hwhole, hfraction, hvalue⟩ := positional_eq d
  refine ⟨valueOf (whole ++ fraction), fraction.length, ?_, ?_⟩
  · rw [hlayout, parse?_point hne hwhole hfraction]
  · refine roundRatio_eq_of_mul_eq (Nat.pow_pos (by decide)) d.denominator_pos ?_
    rw [numerator, denominator]
    simp only [Nat.pow_eq]
    rw [Nat.mul_right_comm, hvalue]
    ring

/-- The digits that are printed for a magnitude are read as that magnitude. -/
theorem toScore_shortest (negative : Bool) {units : Nat} (hunits : units ≠ 0) (h : Fits units) :
    ∃ d, parse? (shortest units).positional = some d ∧
      toScore negative d = Score.ofUnits negative units 1 := by
  obtain ⟨value, places, hparse, hvalue⟩ := parse?_positional (shortest units)
  have hround := hvalue.trans (of_decide_eq_true (shortest_readsBack h))
  refine ⟨_, hparse, ?_⟩
  rw [toScore_eq_ofUnits negative hround hunits h.2]
  exact Score.ofUnits_congr negative (hround.trans h.1.symm)

/-! ## The characters of digits -/

/-- The layout of a decimal begins with a digit and holds digits and at most a point. -/
theorem positional_chars (d : Decimal) :
    (∃ c cs, d.positional = c :: cs ∧ c.isDigit = true) ∧
      ∀ c ∈ d.positional, c.isDigit = true ∨ c = '.' := by
  obtain ⟨whole, fraction, hlayout, hne, hwhole, hfraction, -⟩ := positional_eq d
  obtain ⟨first, rest, rfl⟩ := List.exists_cons_of_ne_nil hne
  rw [hlayout]
  constructor
  · split
    · exact ⟨first, rest, rfl, hwhole first List.mem_cons_self⟩
    · exact ⟨first, _, rfl, hwhole first List.mem_cons_self⟩
  · intro c hc
    split at hc
    · exact Or.inl (hwhole c hc)
    · rcases List.mem_append.1 hc with hc | hc
      · exact Or.inl (hwhole c hc)
      · rcases List.mem_cons.1 hc with rfl | hc
        · exact Or.inr rfl
        · exact Or.inl (hfraction c hc)

end Decimal

namespace Score

/-! ## Texts of scores -/

theorem toNat_of_isDigit {c : Char} (h : c.isDigit = true) : 48 ≤ c.toNat ∧ c.toNat ≤ 57 :=
  Char.isDigit_iff_toNat.1 h

theorem toLower_of_isDigit {c : Char} (h : c.isDigit = true) : c.toLower = c := by
  have hle := (toNat_of_isDigit h).2
  unfold Char.toLower
  refine dif_neg fun hupper => ?_
  have hge : 65 ≤ c.toNat := UInt32.le_iff_toNat_le.1 hupper.1
  omega

/-- What begins with a digit is none of the names of scores. -/
theorem toLower_ne_name {c : Char} (h : c.isDigit = true) (cs : List Char) {name : List Char}
    (hname : name.head?.all fun c => !c.isDigit) : (c :: cs).map Char.toLower ≠ name := by
  rintro rfl
  rw [List.map_cons, toLower_of_isDigit h] at hname
  simp [h] at hname

/-- Digits after a sign or none are read as the score nearest to their decimal. -/
theorem parse?_digits {c : Char} {cs : List Char} (h : c.isDigit = true) {d : Decimal}
    (hd : Decimal.parse? (c :: cs) = some d) :
    parse? (c :: cs) = some (d.toScore false) ∧
      parse? ('-' :: c :: cs) = some (d.toScore true) := by
  have hsign : Decimal.splitSign (c :: cs) = (false, c :: cs) := by
    unfold Decimal.splitSign
    split
    · next heq =>
      cases heq
      cases h
    · next heq =>
      cases heq
      cases h
    · rfl
  have hnan : (c :: cs).map Char.toLower ≠ "nan".toList := toLower_ne_name h cs (by decide)
  have hinf : ¬ ((c :: cs).map Char.toLower = "inf".toList ∨
      (c :: cs).map Char.toLower = "infinity".toList) :=
    not_or.2 ⟨toLower_ne_name h cs (by decide), toLower_ne_name h cs (by decide)⟩
  constructor
  · simp only [parse?, hsign, if_neg hnan, if_neg hinf, hd, Option.map_some]
  · simp only [parse?, Decimal.splitSign, if_neg hnan, if_neg hinf, hd, Option.map_some]

/-- The text of a score is read as that score. -/
theorem parse?_chars (s : Score) : parse? s.chars = some s := by
  cases s with
  | nan => decide +kernel
  | posInf => decide +kernel
  | negInf => decide +kernel
  | negZero => decide +kernel
  | finite units fits =>
      rw [← ofWholeUnits_eq fits]
      by_cases hzero : units = 0
      · subst hzero
        decide +kernel
      · obtain ⟨⟨c, cs, hlayout, hdigit⟩, -⟩ :=
          Decimal.positional_chars (Decimal.shortest units.natAbs)
        have hread := fun negative =>
          Decimal.toScore_shortest negative (Int.natAbs_ne_zero.2 hzero) fits
        rw [hlayout] at hread
        rw [ofWholeUnits_eq fits, chars, if_neg hzero, hlayout, ← ofWholeUnits_eq fits]
        dsimp only
        split
        · next hneg =>
          obtain ⟨d, hparse, hscore⟩ := hread true
          rw [(parse?_digits hdigit hparse).2, hscore, ofWholeUnits, decide_eq_true hneg]
        · next hnot =>
          obtain ⟨d, hparse, hscore⟩ := hread false
          rw [(parse?_digits hdigit hparse).1, hscore, ofWholeUnits, decide_eq_false hnot]

/-- The text of a finite score is not empty and holds digits, signs and points. -/
theorem chars_of_isFinite {s : Score} (h : s.isFinite = true) :
    s.chars ≠ [] ∧ ∀ c ∈ s.chars, c.isDigit = true ∨ c = '.' ∨ c = '-' := by
  cases s with
  | nan => cases h
  | posInf => cases h
  | negInf => cases h
  | negZero => simp [chars]
  | finite units fits =>
      obtain ⟨⟨c, cs, hlayout, -⟩, hchars⟩ :=
        Decimal.positional_chars (Decimal.shortest units.natAbs)
      have hdigits : ∀ d ∈ (Decimal.shortest units.natAbs).positional,
          d.isDigit = true ∨ d = '.' ∨ d = '-' := fun d hd =>
        (hchars d hd).imp_right Or.inl
      unfold chars
      dsimp only
      split
      · simp
      · split
        · refine ⟨List.cons_ne_nil _ _, fun d hd => ?_⟩
          rcases List.mem_cons.1 hd with rfl | hd
          · exact Or.inr (Or.inr rfl)
          · exact hdigits d hd
        · refine ⟨?_, hdigits⟩
          rw [hlayout]
          exact List.cons_ne_nil _ _

end Score
end BestParse
