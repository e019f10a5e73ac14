import BestParse.Score.Basic

/-!
# Decimal text of scores

A score is written with the fewest decimal digits that read back as the same
score; of several such numbers the nearest is taken, and an exact tie goes up.
The text is positional at every size: no exponent, no point after a whole
number, no zeros at the end of a fraction.

A score is read from a sign, the names of the infinities and of the missing
number in either case, or digits with an optional point and an optional decimal
exponent.  A decimal is rounded straight to a score.

* `Decimal.shortest` chooses the digits, `Decimal.positional` lays them out.
* `Decimal.parse?` reads digits, `Decimal.toScore` rounds them.
* `Score.text` and `Score.parse?` put the signs and names around these.
-/

namespace BestParse

/-- The number `digits * 10 ^ exponent`. -/
structure Decimal where
  /-- The digits, as a whole number. -/
  digits : Nat
  /-- The power of ten they are scaled by. -/
  exponent : Int
deriving DecidableEq

namespace Decimal

/-! ## Choosing digits -/

/-- The numerator of a decimal, in units of `2 ^ (-149)`. -/
def numerator (d : Decimal) : Nat := d.digits * Nat.pow 10 d.exponent.toNat * Nat.pow 2 149

/-- The denominator of a decimal. -/
def denominator (d : Decimal) : Nat := Nat.pow 10 (-d.exponent).toNat

/-- Whether a decimal rounds to that many units. -/
def readsBack (d : Decimal) (units : Nat) : Bool :=
  roundRatio d.numerator d.denominator = units

/-- The least power of ten above a magnitude in units, from `10 ^ (-45)` on. -/
def scale (units : Nat) : Int :=
  let scaled := units * Nat.pow 10 45
  (((List.range 85).find? fun i => scaled < Nat.pow 10 i * Nat.pow 2 149).getD 84 : Nat) - 45

/-- The nearest multiple of `10 ^ exponent` that reads back, if one of the two
neighbours of the magnitude does. -/
def onGrid (units : Nat) (exponent : Int) : Option Decimal :=
  let num := units * Nat.pow 10 (-exponent).toNat
  let den := Nat.pow 2 149 * Nat.pow 10 exponent.toNat
  let low : Decimal := ⟨num / den, exponent⟩
  let high : Decimal := ⟨num / den + 1, exponent⟩
  match low.readsBack units, high.readsBack units with
  | true, true => some (if 2 * (num % den) < den then low else high)
  | true, false => some low
  | false, true => some high
  | false, false => none

/-- The exact decimal expansion of a magnitude in units. -/
def exact (units : Nat) : Decimal := ⟨units * Nat.pow 5 149, -149⟩

/-- The fewest digits that read back as a magnitude.  Nine are always enough; the
exact expansion stands in after them. -/
def shortest (units : Nat) : Decimal :=
  ((List.range 9).findSome? fun (i : Nat) => onGrid units (scale units - 1 - i)).getD (exact units)

/-! ## Layout -/

/-- A text without its zeros at the end. -/
def dropTrailingZeros (cs : List Char) : List Char :=
  (cs.reverse.dropWhile (· = '0')).reverse

/-- The digits of a decimal around a point that stands only before a fraction. -/
def positional (d : Decimal) : List Char :=
  let digits := Nat.toDigits 10 d.digits
  if 0 ≤ d.exponent then digits ++ List.replicate d.exponent.toNat '0'
  else
    let places := (-d.exponent).toNat
    let padded := List.replicate (places + 1 - digits.length) '0' ++ digits
    let whole := padded.take (padded.length - places)
    let fraction := dropTrailingZeros (padded.drop (padded.length - places))
    if fraction.isEmpty then whole else whole ++ '.' :: fraction

/-! ## Reading -/

/-- The value of a string of decimal digits. -/
def valueOf (cs : List Char) : Nat := cs.foldl (fun n c => 10 * n + (c.toNat - '0'.toNat)) 0

/-- A sign in front of a text, and the rest; no sign means a positive one. -/
def splitSign : List Char → Bool × List Char
  | '-' :: cs => (true, cs)
  | '+' :: cs => (false, cs)
  | cs => (false, cs)

/-- An exponent: an optional sign and at least one digit. -/
def parseExponent? (cs : List Char) : Option Int :=
  let (negative, digits) := splitSign cs
  if digits.isEmpty || !digits.all Char.isDigit then none
  else some (if negative then -(valueOf digits : Int) else valueOf digits)

/-- Unsigned decimal text: digits with an optional point among or around them, at
least one digit in all, and an optional exponent after an `e` of either case. -/
def parse? (cs : List Char) : Option Decimal :=
  let whole := cs.takeWhile Char.isDigit
  let afterWhole := cs.dropWhile Char.isDigit
  let (fraction, tail) := match afterWhole with
    | '.' :: t => (t.takeWhile Char.isDigit, t.dropWhile Char.isDigit)
    | t => ([], t)
  if whole.isEmpty && fraction.isEmpty then none
  else
    let exponent := match tail with
      | [] => some 0
      | c :: t => if c = 'e' ∨ c = 'E' then parseExponent? t else none
    exponent.map fun e => ⟨valueOf (whole ++ fraction), e - fraction.length⟩

/-- The score nearest to a decimal.  A decimal below `10 ^ (-60)` rounds to zero and
one from `10 ^ 60` on is infinite, so no larger power of ten is computed. -/
def toScore (negative : Bool) (d : Decimal) : Score :=
  let magnitude : Int := (Nat.toDigits 10 d.digits).length + d.exponent
  if d.digits = 0 ∨ magnitude < -60 then Score.ofUnits negative 0 1
  else if 60 < magnitude then if negative then .negInf else .posInf
  else Score.ofUnits negative d.numerator d.denominator

end Decimal

/-! ## Scores as text -/

namespace Score

/-- The text of a score, as characters. -/
def chars : Score → List Char
  | .nan => "NaN".toList
  | .posInf => "inf".toList
  | .negInf => "-inf".toList
  | .negZero => "-0".toList
  | .finite units _ =>
    if units = 0 then ['0']
    else
      let digits := (Decimal.shortest units.natAbs).positional
      if units < 0 then '-' :: digits else digits

/-- The text of a score. -/
def text (s : Score) : String := String.ofList s.chars

/-- Read a score; `none` when the text is not a number. -/
def parse? (cs : List Char) : Option Score :=
  let (negative, rest) := Decimal.splitSign cs
  let name := rest.map Char.toLower
  if name = "nan".toList then some .nan
  else if name = "inf".toList ∨ name = "infinity".toList then
    some (if negative then .negInf else .posInf)
  else (Decimal.parse? rest).map (Decimal.toScore negative)

end Score

end BestParse
