import SmallScheme.Binary64.Rounding

/-!
Double-precision numbers and their exact operations.

A finite number is a sign and a whole count of quanta of `2^-1074` that lies on the grid of
doubles. Sums, products, quotients and roots are the exact results rounded once, to nearest with
ties to even; remainders and roundings to whole numbers are exact.
-/
namespace SmallScheme

/-- The counts of quanta that are magnitudes of finite doubles. -/
def IsMagnitude (n : Nat) : Prop :=
  n < twoPow Grid.double.limit ∧ Grid.double.spacing n ∣ n

/-- A double. Both zeros are finite, and there is one not-a-number. -/
inductive Binary64 where
  | nan
  | infinite (negative : Bool)
  | finite (negative : Bool) (quanta : Nat) (isMagnitude : IsMagnitude quanta)
deriving DecidableEq

namespace Binary64

/-- The number of quanta in `1`. -/
def one : Nat := twoPow 1074

/-- The double nearest to `n / d` quanta, infinite when that is out of range. -/
def ofQuanta (negative : Bool) (n d : Nat) : Binary64 :=
  if h : Grid.double.round n d < twoPow Grid.double.limit then
    .finite negative (Grid.double.round n d) ⟨h, Grid.double.spacing_round_dvd n d⟩
  else
    .infinite negative

/-- The double nearest to the fraction `n / d`. -/
def ofRatio (negative : Bool) (n d : Nat) : Binary64 := ofQuanta negative (n * one) d

/-- The double nearest to a whole number. -/
def ofInt (i : Int) : Binary64 := ofRatio (i < 0) i.natAbs 1

def ofNat (n : Nat) : Binary64 := ofRatio false n 1

instance (n : Nat) : OfNat Binary64 n := ⟨ofNat n⟩

/-- Zero with the given sign. -/
def zero (negative : Bool) : Binary64 := ofQuanta negative 0 1

/-- The count of quanta with its sign. -/
def signed (negative : Bool) (n : Nat) : Int := if negative then -n else n

theorem natAbs_signed (negative : Bool) (n : Nat) : (signed negative n).natAbs = n := by
  cases negative with
  | false => rfl
  | true => exact Int.natAbs_neg n

/-- A place on the number line that orders all doubles but not-a-number; both zeros share one. -/
def place? : Binary64 → Option Int
  | nan => none
  | infinite s => some (signed s (twoPow Grid.double.limit))
  | finite s n _ => some (signed s n)

def isNaN : Binary64 → Bool
  | nan => true
  | _ => false

def isFinite : Binary64 → Bool
  | finite .. => true
  | _ => false

/-- Whether both places exist and are related. -/
def related (r : Int → Int → Bool) (x y : Binary64) : Bool :=
  match x.place?, y.place? with
  | some a, some b => r a b
  | _, _ => false

/-- Numeric equality: both zeros are equal and not-a-number equals nothing. -/
def same : Binary64 → Binary64 → Bool := related fun a b => a == b

def less : Binary64 → Binary64 → Bool := related fun a b => a < b

def atMost : Binary64 → Binary64 → Bool := related fun a b => a ≤ b

def neg : Binary64 → Binary64
  | nan => nan
  | infinite s => infinite !s
  | finite s n h => finite (!s) n h

def abs : Binary64 → Binary64
  | nan => nan
  | infinite _ => infinite false
  | finite _ n h => finite false n h

/-- A sum of zero is negative only when both terms are. -/
def add : Binary64 → Binary64 → Binary64
  | infinite s, infinite t => if s = t then infinite s else nan
  | infinite s, finite .. => infinite s
  | finite .., infinite t => infinite t
  | finite s m _, finite t n _ =>
    let sum := signed s m + signed t n
    if sum = 0 then zero (s && t) else ofQuanta (sum < 0) sum.natAbs 1
  | _, _ => nan

def sub (x y : Binary64) : Binary64 := x.add y.neg

def mul : Binary64 → Binary64 → Binary64
  | infinite s, infinite t => infinite (s != t)
  | infinite s, finite t n _ => if n = 0 then nan else infinite (s != t)
  | finite s m _, infinite t => if m = 0 then nan else infinite (s != t)
  | finite s m _, finite t n _ => ofQuanta (s != t) (m * n) one
  | _, _ => nan

def div : Binary64 → Binary64 → Binary64
  | infinite s, finite t _ _ => infinite (s != t)
  | finite s _ _, infinite t => zero (s != t)
  | finite s m _, finite t n _ =>
    if n = 0 then (if m = 0 then nan else infinite (s != t)) else ofQuanta (s != t) (m * one) n
  | _, _ => nan

/-- The remainder of division toward zero; it is exact and has the sign of the dividend. -/
def rem : Binary64 → Binary64 → Binary64
  | finite s m h, infinite _ => finite s m h
  | finite s m _, finite _ n _ => if n = 0 then nan else ofQuanta s (m % n) 1
  | _, _ => nan

instance : Neg Binary64 := ⟨neg⟩
instance : Add Binary64 := ⟨add⟩
instance : Sub Binary64 := ⟨sub⟩
instance : Mul Binary64 := ⟨mul⟩
instance : Div Binary64 := ⟨div⟩
instance : Mod Binary64 := ⟨rem⟩

/-- Moves a finite number to a whole one, given its whole part and whether a fraction is left. -/
def toWhole (pick : (negative : Bool) → (whole : Nat) → (fraction : Bool) → Nat) :
    Binary64 → Binary64
  | finite s n _ => ofRatio s (pick s (n / one) (n % one != 0)) 1
  | x => x

def trunc : Binary64 → Binary64 := toWhole fun _ w _ => w

def floor : Binary64 → Binary64 := toWhole fun s w f => if s && f then w + 1 else w

def ceil : Binary64 → Binary64 := toWhole fun s w f => if !s && f then w + 1 else w

/-- The nearest whole number; a half goes up. -/
def round (x : Binary64) : Binary64 :=
  if (ofRatio false 1 2).atMost (x - x.floor) then x.floor + 1 else x.floor

/-- One with the sign of the number; both zeros and not-a-number stay as they are. -/
def sign (x : Binary64) : Binary64 :=
  if less 0 x then 1 else if x.less 0 then -1 else x

/-- The greater of two numbers; not-a-number gives way. -/
def max (x y : Binary64) : Binary64 :=
  if x.isNaN then y else if y.isNaN then x else if x.less y then y else x

/-- The lesser of two numbers; not-a-number gives way. -/
def min (x y : Binary64) : Binary64 :=
  if x.isNaN then y else if y.isNaN then x else if y.less x then y else x

/-- The nearest single-precision number. -/
def toSingle : Binary64 → Binary64
  | finite s n _ =>
    let m := Grid.single.round n 1
    if m < twoPow Grid.single.limit then ofQuanta s m 1 else infinite s
  | x => x

/-- The whole part of the `k`-th root of `n`, for `n < 2 ^ (k * digits)`, one binary digit at a
time. -/
def wholeRoot (k : Nat) : (digits : Nat) → (n : Nat) → Nat
  | 0, _ => 0
  | d + 1, n =>
    let r := 2 * wholeRoot k d (n / twoPow k)
    if Nat.pow (r + 1) k ≤ n then r + 1 else r

/-- The double nearest to the `k`-th root of `n`, in quanta. Every boundary between doubles is a
multiple of half a quantum, so a root strictly between two halves rounds as their middle does. -/
def ofRoot (negative : Bool) (k n : Nat) : Binary64 :=
  let m := twoPow k * n
  let halves := wholeRoot k (m.log2 / k + 1) m
  if Nat.pow halves k = m then ofQuanta negative halves 2 else ofQuanta negative (2 * halves + 1) 4

def sqrt : Binary64 → Binary64
  | finite s n h => if n = 0 then finite s n h else if s then nan else ofRoot false 2 (n * one)
  | infinite false => infinite false
  | _ => nan

def cbrt : Binary64 → Binary64
  | finite s n h => if n = 0 then finite s n h else ofRoot s 3 (n * (one * one))
  | x => x

/-- The square root of the sum of two squares; an infinite argument wins over not-a-number. -/
def hypot : Binary64 → Binary64 → Binary64
  | infinite _, _ => infinite false
  | _, infinite _ => infinite false
  | finite _ m _, finite _ n _ => ofRoot false 2 (m * m + n * n)
  | _, _ => nan

end Binary64

end SmallScheme
