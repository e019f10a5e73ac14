import BestParse.Score.Rounding

/-!
# Scores

A score is the logarithm of a probability, kept with twenty-four significant
bits.  Finite scores are whole numbers of the least unit `2 ^ (-149)`, so a sum
is an exact sum of integers followed by one rounding, and comparing scores is
comparing integers.  Zero has two signs, which only its text and its bits show.

Aggregation is the maximum and combination is addition.  An item without a
derivation is `unreachable`; combination refuses unreachable operands, so two
of them never meet in a sum.

Two orders are used.  `improves` is the strict comparison of numbers, false as
soon as one side is not a number.  `rank` is total: it puts what is not a number
above everything else, and queues follow it.
-/

namespace BestParse

/-- A score with twenty-four significant bits. -/
inductive Score where
  /-- Not a number. -/
  | nan
  /-- Below every number. -/
  | negInf
  /-- Above every number. -/
  | posInf
  /-- Zero with a negative sign. -/
  | negZero
  /-- That many units of `2 ^ (-149)`; no units is zero with a positive sign. -/
  | finite (units : Int) (fits : Fits units.natAbs)
deriving DecidableEq

namespace Score

instance : Inhabited Score := ⟨.negInf⟩

/-! ## Rounded numbers -/

/-- The score nearest to `num / den` units, with the sign given. -/
def ofUnits (negative : Bool) (num den : Nat) : Score :=
  if h : roundRatio num den < overflowBound then
    if negative then
      if roundRatio num den = 0 then .negZero
      else .finite (-(roundRatio num den : Nat)) (by simpa using fits_roundRatio h)
    else .finite (roundRatio num den : Nat) (by simpa using fits_roundRatio h)
  else if negative then .negInf else .posInf

/-- The score nearest to a whole number of units. -/
def ofWholeUnits (units : Int) : Score := ofUnits (units < 0) units.natAbs 1

/-- The score nearest to `num / den`, with the sign given. -/
def ofRatio (negative : Bool) (num den : Nat) : Score := ofUnits negative (num * Nat.pow 2 149) den

/-- The score nearest to a whole number. -/
def ofNat (n : Nat) : Score := ofRatio false n 1

/-! ## Order -/

/-- The place of a score on the number line, in units.  The infinities stand just
outside the finite scores, and what is not a number stands above all. -/
def rank : Score → Int
  | .nan => (overflowBound : Int) + 1
  | .negInf => -(overflowBound : Int)
  | .posInf => overflowBound
  | .negZero => 0
  | .finite units _ => units

/-- Strict improvement: both are numbers and the candidate is the greater one. -/
def improves (candidate current : Score) : Bool :=
  candidate ≠ .nan ∧ current ≠ .nan ∧ current.rank < candidate.rank

theorem improves_iff {a b : Score} :
    a.improves b = true ↔ a ≠ .nan ∧ b ≠ .nan ∧ b.rank < a.rank := by
  simp [improves]

/-- Equal scores never replace each other. -/
theorem not_improves_self (a : Score) : a.improves a = false := by
  simp [improves]

theorem improves_trans {a b c : Score} (hab : a.improves b = true) (hbc : b.improves c = true) :
    a.improves c = true := by
  rw [improves_iff] at *
  exact ⟨hab.1, hbc.2.1, Int.lt_trans hbc.2.2 hab.2.2⟩

/-- Both are numbers and the first is not the greater one. -/
def isAtMost (a b : Score) : Bool := a ≠ .nan ∧ b ≠ .nan ∧ a.rank ≤ b.rank

/-- Neither infinite nor missing. -/
def isFinite : Score → Bool
  | .negZero => true
  | .finite _ _ => true
  | _ => false

/-! ## Sums and derivation scores -/

/-- The sum, rounded once.  Opposite infinities have no sum, and two negative zeros
sum to a negative zero. -/
def add : Score → Score → Score
  | .nan, _ => .nan
  | _, .nan => .nan
  | .posInf, .negInf => .nan
  | .negInf, .posInf => .nan
  | .posInf, _ => .posInf
  | _, .posInf => .posInf
  | .negInf, _ => .negInf
  | _, .negInf => .negInf
  | .negZero, .negZero => .negZero
  | a, b => ofWholeUnits (a.rank + b.rank)

instance : Add Score := ⟨add⟩

/-- The score of an item without a derivation. -/
def unreachable : Score := .negInf

/-- The score of the empty derivation. -/
def certain : Score := .finite 0 fits_zero

/-- Whether some derivation has this score. -/
def isReachable (s : Score) : Bool := s.improves unreachable

/-- The score of a derivation with one child: the production's score plus the
child's. -/
def extend (logprob child : Score) : Option Score :=
  if child.isReachable then some (logprob + child) else none

/-- The score of a derivation with two children.  The children are summed first, so
the best sum of children over several split points gives the best derivation. -/
def combine (logprob left right : Score) : Option Score :=
  if left.isReachable && right.isReachable then some (logprob + (left + right)) else none

end Score

end BestParse
