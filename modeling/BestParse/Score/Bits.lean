import BestParse.Score.Basic

/-!
# The bits of a score

The interchange form of a score is a word of thirty-two bits: a sign, eight bits
of exponent and twenty-three of fraction.  For a finite score the word without
its sign counts the grid points below it, so it is read off the spacing of the
grid.

Log priors are the only place where a transcendental function is needed.  It is
the machine's single-precision logarithm, carried over by the bits.
-/

namespace BestParse
namespace Score

/-- The sign bit. -/
def signBit : Nat := 0x80000000

/-- The word of positive infinity. -/
def infinityBits : Nat := 0x7f800000

/-- The word of a magnitude in units. -/
def magnitudeBits (n : Nat) : Nat := (n.log2 - 23) * 0x800000 + n / gridSpacing n

/-- The word of a score.  All missing numbers share one word. -/
def toBits : Score → UInt32
  | .nan => 0x7fc00000
  | .posInf => infinityBits.toUInt32
  | .negInf => (signBit + infinityBits).toUInt32
  | .negZero => signBit.toUInt32
  | .finite units _ =>
    (magnitudeBits units.natAbs + if units < 0 then signBit else 0).toUInt32

/-- The score of a word. -/
def ofBits (bits : UInt32) : Score :=
  let negative := signBit ≤ bits.toNat
  let exponent := bits.toNat / 0x800000 % 256
  let fraction := bits.toNat % 0x800000
  if exponent = 255 then
    if fraction = 0 then if negative then .negInf else .posInf else .nan
  else if exponent = 0 then ofUnits negative fraction 1
  else ofUnits negative ((0x800000 + fraction) * Nat.pow 2 (exponent - 1)) 1

/-- The natural logarithm in single precision. -/
def log (s : Score) : Score := ofBits (Float32.log (Float32.ofBits s.toBits)).toBits

end Score
end BestParse
