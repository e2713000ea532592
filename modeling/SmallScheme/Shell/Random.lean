import SmallScheme.Store

/-!
The random numbers that the program is run with. A session itself is a function of the numbers.
-/
namespace SmallScheme.Shell

/-- The random number after `draws` others: a multiple of `2^-53` in `[0, 1)`, mixed from the seed
and the count. -/
def uniform (seed draws : Nat) : Binary64 :=
  let z := UInt64.ofNat seed + UInt64.ofNat (draws + 1) * 0x9e3779b97f4a7c15
  let z := (z ^^^ (z >>> 30)) * 0xbf58476d1ce4e5b9
  let z := (z ^^^ (z >>> 27)) * 0x94d049bb133111eb
  let z := z ^^^ (z >>> 31)
  .ofRatio false (z >>> 11).toNat (twoPow 53)

end SmallScheme.Shell
