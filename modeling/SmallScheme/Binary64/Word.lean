import SmallScheme.Binary64.Basic

/-!
Doubles and machine words: the 64-bit encoding of a double, and the 32-bit integer operations on
doubles, which take the whole part modulo `2^32`.
-/
namespace SmallScheme.Binary64

/-- The encoding of a magnitude: its exponent field above its 52 fraction bits. -/
def magnitudeBits (n : Nat) : Nat :=
  if n < twoPow 52 then n
  else
    let k := Grid.double.shift n
    (k + 1) * twoPow 52 + (n / twoPow k - twoPow 52)

def signBit (negative : Bool) : Nat := if negative then twoPow 63 else 0

/-- The 64-bit encoding. -/
def toBits : Binary64 → UInt64
  | nan => UInt64.ofNat (2047 * twoPow 52 + twoPow 51)
  | infinite s => UInt64.ofNat (signBit s + 2047 * twoPow 52)
  | finite s n _ => UInt64.ofNat (signBit s + magnitudeBits n)

/-- The double with a given encoding. -/
def ofBits (bits : UInt64) : Binary64 :=
  let negative := twoPow 63 ≤ bits.toNat
  let exponent := bits.toNat / twoPow 52 % twoPow 11
  let fraction := bits.toNat % twoPow 52
  if exponent = 0 then ofQuanta negative fraction 1
  else if exponent < 2047 then ofQuanta negative ((twoPow 52 + fraction) * twoPow (exponent - 1)) 1
  else if fraction = 0 then infinite negative
  else nan

/-- The remainder of division toward zero, moved up by the size of the divisor if it is negative. -/
def remEuclid (x y : Binary64) : Binary64 :=
  let r := x % y
  if r.less 0 then r + y.abs else r

/-- The whole part as a word. What is out of range gives the nearest word, and not-a-number zero. -/
def clampWord : Binary64 → UInt32
  | nan => 0
  | infinite s => if s then 0 else UInt32.ofNat (twoPow 32 - 1)
  | finite s n _ => if s then 0 else UInt32.ofNat (Nat.min (n / one) (twoPow 32 - 1))

/-- The whole part modulo `2^32`; numbers that are not finite count as zero. -/
def toWord (x : Binary64) : UInt32 :=
  if x.isFinite then (x.trunc.remEuclid 4294967296).clampWord else 0

/-- The number of leading zeros of the 32-bit form. -/
def leadingZeros (x : Binary64) : Nat :=
  if x.toWord = 0 then 32 else 31 - x.toWord.toNat.log2

/-- The product of the 32-bit forms, read as signed words. -/
def wordProduct (x y : Binary64) : Int := (x.toWord.toInt32 * y.toWord.toInt32).toInt

end SmallScheme.Binary64
