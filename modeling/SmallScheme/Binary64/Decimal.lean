import SmallScheme.Binary64.Basic

/-!
Decimal forms of doubles: the double nearest to a decimal, and the shortest decimal that reads back
as a given double, written positionally.
-/
namespace SmallScheme

/-- The number `digits * 10 ^ exponent`. -/
structure Decimal where
  digits : Nat
  exponent : Int
deriving DecidableEq

namespace Decimal

/-- The decimal as a fraction. -/
def ratio (d : Decimal) : Nat × Nat :=
  if 0 ≤ d.exponent then (d.digits * Nat.pow 10 d.exponent.toNat, 1)
  else (d.digits, Nat.pow 10 (-d.exponent).toNat)

/-- The double nearest to the decimal. Decimals far outside the range of doubles are decided by
their exponent, since a number has no more decimal digits than binary ones. -/
def toBinary64 (negative : Bool) (d : Decimal) : Binary64 :=
  if d.digits = 0 then .zero negative
  else if 400 < d.exponent then .infinite negative
  else if d.exponent + d.digits.log2 < -400 then .zero negative
  else .ofRatio negative d.ratio.1 d.ratio.2

/-- Whether the decimal reads back as a double of `n` quanta. -/
def readsAs (d : Decimal) (n : Nat) : Bool :=
  match d.toBinary64 false with
  | .finite _ m _ => m = n
  | _ => false

/-- Neighbours on the grid of multiples of `10 ^ exponent` of the number `n` quanta, the nearer one
first; the upper one comes first when both are equally near. -/
def neighbours (n : Nat) (exponent : Int) : List Decimal :=
  let scale : Decimal := ⟨1, exponent⟩
  let num := n * scale.ratio.2
  let den := Binary64.one * scale.ratio.1
  let low : Decimal := ⟨num / den, exponent⟩
  let high : Decimal := ⟨num / den + 1, exponent⟩
  if 2 * (num % den) < den then [low, high] else [high, low]

/-- The decimal exponent of the leading digit of `n` quanta, for `n` that is not zero. -/
def leadingExponent (n : Nat) : Int :=
  (Nat.toDigits 10 (n * Nat.pow 10 324 / Binary64.one)).length - 325

/-- All decimal digits of `n` quanta. -/
def exactly (n : Nat) : Decimal := ⟨n * Nat.pow 5 1074, -1074⟩

/-- The neighbour of `n` quanta on a grid that reads back, if there is one. -/
def onGrid? (n : Nat) (exponent : Int) : Option Decimal :=
  (neighbours n exponent).find? (·.readsAs n)

/-- The decimal with fewest digits that reads back as `n` quanta, the nearest of those. -/
def shortest (n : Nat) : Decimal :=
  let top := leadingExponent n
  ((List.range 17).findSome? fun (k : Nat) => onGrid? n (top - k)).getD (exactly n)

/-- Positional notation without exponent; a fraction is written without trailing zeros. -/
def positional (d : Decimal) : List Char :=
  let digits := Nat.toDigits 10 d.digits
  if 0 ≤ d.exponent then digits ++ List.replicate d.exponent.toNat '0'
  else
    let places := (-d.exponent).toNat
    let padded := List.replicate (places + 1 - digits.length) '0' ++ digits
    let fraction := ((padded.drop (padded.length - places)).reverse.dropWhile (· = '0')).reverse
    let whole := padded.take (padded.length - places)
    if fraction.isEmpty then whole else whole ++ '.' :: fraction

end Decimal

/-- The text of a number: the shortest digits that read back, never an exponent. Both zeros are
written alike. -/
def Binary64.text : Binary64 → String
  | .nan => "NaN"
  | .infinite negative => if negative then "-Infinity" else "Infinity"
  | .finite negative n _ =>
    if n = 0 then "0"
    else
      let digits := (Decimal.shortest n).positional
      String.ofList (if negative then '-' :: digits else digits)

end SmallScheme
