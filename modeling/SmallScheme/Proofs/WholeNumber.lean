import SmallScheme.Builtin.Reply
import SmallScheme.Proofs.Rounding

/-! Whole numbers among the doubles, and the operations that are exact on them.

A whole number is a double if it has at most 53 significant bits. The remainder of two doubles and the
whole part of a double always are doubles, so neither of them is ever rounded; a sum is rounded when it
has too many bits. -/
namespace SmallScheme

namespace Grid

/-- A number below another one on the grid is on the finer grid there if it is a multiple of the
coarser one. -/
theorem spacing_dvd_of_le (g : Grid) {m n : Nat} (h : m ≤ n) (hm : g.spacing n ∣ m) :
    g.spacing m ∣ m :=
  Nat.dvd_trans (g.spacing_dvd_spacing h) hm

end Grid

/-- Remainders of doubles are doubles. -/
theorem isMagnitude_mod {m n : Nat} (hm : IsMagnitude m) (hn : IsMagnitude n) (h0 : n ≠ 0) :
    IsMagnitude (m % n) := by
  by_cases hlt : m < n
  · rw [Nat.mod_eq_of_lt hlt]
    exact hm
  · have hrem : m % n < n := Nat.mod_lt m (Nat.pos_of_ne_zero h0)
    have hunit : Grid.double.spacing n ∣ m :=
      Nat.dvd_trans (Grid.double.spacing_dvd_spacing (Nat.not_lt.mp hlt)) hm.2
    refine ⟨Nat.lt_trans hrem hn.1, Grid.double.spacing_dvd_of_le (Nat.le_of_lt hrem) ?_⟩
    exact (Nat.dvd_mod_iff hn.2).mpr hunit

namespace Binary64

/-- Numbers of at most 53 bits are doubles at every scale up to the greatest. -/
theorem isMagnitude_scaled {q k : Nat} (hq : q ≤ twoPow 53) (hk : k ≤ 900) :
    IsMagnitude (q * twoPow k * one) := by
  obtain ⟨j, hj, hone⟩ := one_eq
  have hpow : q * twoPow k * one = q * twoPow (k + j) := by
    rw [hone, Nat.mul_assoc]
    exact congrArg (q * ·) (Nat.pow_add ..).symm
  rw [hpow]
  refine ⟨?_, Grid.double.spacing_dvd_mul (Nat.zero_le _) hq⟩
  calc q * twoPow (k + j) ≤ 2 ^ 53 * 2 ^ (k + j) := Nat.mul_le_mul_right _ hq
    _ = twoPow (53 + (k + j)) := (Nat.pow_add ..).symm
    _ < twoPow Grid.double.limit := by
      apply twoPow_lt_twoPow
      change 53 + (k + j) < 2098
      omega

theorem isMagnitude_whole {n : Nat} (h : n ≤ twoPow 53) : IsMagnitude (n * one) := by
  have hscaled := isMagnitude_scaled h (Nat.zero_le 900)
  rwa [Nat.mul_one] at hscaled

/-- The whole part of a double is a double: below `2 ^ 53` it is small, and from there on doubles are
whole. -/
theorem isMagnitude_div_mul {n : Nat} (h : IsMagnitude n) : IsMagnitude (n / one * one) := by
  by_cases hsmall : n / one ≤ twoPow 53
  · exact isMagnitude_whole hsmall
  · have hwhole : one ∣ n := by
      refine Nat.dvd_trans ?_ h.2
      obtain ⟨k, hk, hone⟩ := one_eq
      have hlarge : 2 ^ (53 + k) ≤ n := by
        calc 2 ^ (53 + k) = 2 ^ 53 * one := by rw [hone]; exact Nat.pow_add ..
          _ ≤ n / one * one := Nat.mul_le_mul_right one (Nat.le_of_not_le hsmall)
          _ ≤ n := Nat.div_mul_le_self n one
      have hn : n ≠ 0 := Nat.ne_of_gt (Nat.lt_of_lt_of_le (Nat.two_pow_pos _) hlarge)
      have hlog := (Nat.le_log2 hn).mpr hlarge
      rw [hone]
      refine Nat.pow_dvd_pow 2 (Nat.le_trans ?_ (Nat.le_max_right ..))
      change k ≤ n.log2 + 1 - 53
      omega
    rwa [Nat.div_mul_cancel hwhole]

theorem nearestEven_odd_half {n : Nat} (hodd : n % 2 = 1) :
    nearestEven n 2 % 2 = 0 ∧ (2 * nearestEven n 2 = n + 1 ∨ 2 * nearestEven n 2 + 1 = n) := by
  unfold nearestEven
  split <;> omega

theorem spacing_wide {n : Nat} (hlow : twoPow 53 ≤ n) (hhigh : n < twoPow 54) :
    Grid.double.spacing (n * one) = 2 * one := by
  obtain ⟨k, hk, hone⟩ := one_eq
  have hlog : (n * twoPow k).log2 = 53 + k := by
    have hne : n * twoPow k ≠ 0 := by
      refine Nat.mul_ne_zero (fun h0 => ?_) (Nat.ne_of_gt (twoPow_pos k))
      rw [h0] at hlow
      exact absurd hlow (Nat.not_le.mpr (twoPow_pos 53))
    refine (Nat.log2_eq_iff hne).mpr ⟨?_, ?_⟩
    · rw [Nat.pow_add]
      exact Nat.mul_le_mul_right _ hlow
    · rw [Nat.add_right_comm, Nat.pow_add]
      exact Nat.mul_lt_mul_of_pos_right hhigh (twoPow_pos k)
  have hshift : Grid.double.shift (n * twoPow k) = k + 1 := by
    rw [Grid.shift, hlog]
    change Max.max 0 (53 + k + 1 - 53) = k + 1
    omega
  rw [hone, Grid.spacing, hshift]
  exact Nat.pow_succ'

/-- An odd whole number of 54 bits lies between two doubles; the multiple of four is taken. -/
theorem round_odd {n : Nat} (hodd : n % 2 = 1) (hlow : twoPow 53 ≤ n) (hhigh : n < twoPow 54) :
    ∃ q, q ≤ twoPow 53 ∧ q % 2 = 0 ∧ (2 * q = n + 1 ∨ 2 * q + 1 = n) ∧
      Grid.double.round (n * one) 1 = q * twoPow 1 * one := by
  have hnear : Grid.double.round (n * one) 1 = nearestEven n 2 * twoPow 1 * one := by
    rw [Grid.round, Nat.div_one, spacing_wide hlow hhigh, Nat.one_mul,
      nearestEven_mul_right n 2 one_pos, Nat.mul_assoc]
  obtain ⟨heven, hnext⟩ := nearestEven_odd_half hodd
  have hdouble : twoPow 54 = 2 * twoPow 53 := Nat.pow_succ'
  exact ⟨nearestEven n 2, by omega, heven, hnext, hnear⟩

theorem ofQuanta_self (s : Bool) {n : Nat} (h : IsMagnitude n) : ofQuanta s n 1 = finite s n h :=
  ofQuanta_eq_finite s (Grid.double.round_self h.2) h

theorem signed_mul (s : Bool) (m n : Nat) : signed s (m * n) = signed s m * n := by
  cases s with
  | false => exact Int.natCast_mul m n
  | true => exact (congrArg Neg.neg (Int.natCast_mul m n)).trans (Int.neg_mul ..).symm

theorem signed_tdiv (s : Bool) (m n : Nat) : (signed s m).tdiv n = signed s (m / n) := by
  cases s with
  | false => exact (Int.ofNat_tdiv m n).symm
  | true => exact (Int.neg_tdiv ..).trans (congrArg Neg.neg (Int.ofNat_tdiv m n).symm)

theorem signed_tmod (s t : Bool) (m n : Nat) :
    (signed s m).tmod (signed t n) = signed s (m % n) := by
  have hpos : (signed s m).tmod n = signed s (m % n) := by
    cases s with
    | false => exact (Int.ofNat_tmod m n).symm
    | true => exact (Int.neg_tmod ..).trans (congrArg Neg.neg (Int.ofNat_tmod m n).symm)
  cases t with
  | false => exact hpos
  | true => exact (Int.tmod_neg ..).trans hpos

/-- The value of a double truncated toward zero; zero for what is not finite. -/
def wholePart : Binary64 → Int
  | finite s n _ => (signed s n).tdiv one
  | _ => 0

/-- A finite double is the whole number. Both zeros are zero. -/
def IsWhole (x : Binary64) (i : Int) : Prop :=
  ∃ s n h, x = finite s (n * one) h ∧ i = signed s n

theorem trunc_isWhole {x : Binary64} (h : x.isFinite = true) : x.trunc.IsWhole x.wholePart := by
  cases x with
  | nan => cases h
  | infinite => cases h
  | finite s n hn =>
    have htrunc : (finite s n hn).trunc = ofQuanta s (n / one * one) 1 := rfl
    have hwhole := isMagnitude_div_mul hn
    rw [htrunc, ofQuanta_self s hwhole]
    exact ⟨s, n / one, hwhole, rfl, signed_tdiv s n one⟩

theorem ofInt_isWhole {i : Int} (h : IsMagnitude (i.natAbs * one)) : (ofInt i).IsWhole i := by
  have hof : ofInt i = ofQuanta (decide (i < 0)) (i.natAbs * one) 1 := rfl
  rw [hof, ofQuanta_self _ h]
  refine ⟨_, i.natAbs, h, rfl, ?_⟩
  by_cases hi : i < 0
  · rw [signed, if_pos (decide_eq_true hi)]
    omega
  · rw [signed, if_neg (by simpa using hi)]
    omega

theorem ofNat_isWhole {n : Nat} (h : n ≤ twoPow 53) : (ofNat n).IsWhole n := by
  have hof : ofNat n = ofQuanta false (n * one) 1 := rfl
  have hmagnitude := isMagnitude_whole h
  rw [hof, ofQuanta_self _ hmagnitude]
  exact ⟨false, n, hmagnitude, rfl, rfl⟩

theorem zero_isWhole (s : Bool) : (zero s).IsWhole 0 := by
  have hzero : zero s = ofQuanta s (0 * one) 1 := by rw [Nat.zero_mul, zero]
  have hmagnitude := isMagnitude_whole (Nat.zero_le (twoPow 53))
  rw [hzero, ofQuanta_self s hmagnitude]
  refine ⟨s, 0, hmagnitude, rfl, ?_⟩
  cases s <;> rfl

section Operations

variable (s t : Bool) {m n : Nat} (hm : IsMagnitude m) (hn : IsMagnitude n)

theorem rem_finite : finite s m hm % finite t n hn =
    if n = 0 then nan else ofQuanta s (m % n) 1 := rfl

theorem add_finite : finite s m hm + finite t n hn =
    if signed s m + signed t n = 0 then zero (s && t)
    else ofQuanta (signed s m + signed t n < 0) (signed s m + signed t n).natAbs 1 := rfl

theorem less_finite : (finite s m hm).less (finite t n hn) = decide (signed s m < signed t n) := rfl

end Operations

namespace IsWhole

variable {x y : Binary64} {i j : Int}

theorem isMagnitude (hx : x.IsWhole i) : IsMagnitude (i.natAbs * one) := by
  obtain ⟨s, n, h, -, rfl⟩ := hx
  rwa [natAbs_signed]

/-- The remainder of division toward zero is not rounded. -/
theorem rem (hx : x.IsWhole i) (hy : y.IsWhole j) (hj : j ≠ 0) : (x % y).IsWhole (i.tmod j) := by
  obtain ⟨s, m, hm, rfl, rfl⟩ := hx
  obtain ⟨t, n, hn, rfl, rfl⟩ := hy
  have hn0 : n * one ≠ 0 := by
    intro h0
    refine hj (Int.natAbs_eq_zero.mp ?_)
    rw [natAbs_signed]
    exact (Nat.mul_eq_zero.mp h0).resolve_right (Nat.ne_of_gt one_pos)
  have hmod : m * one % (n * one) = m % n * one := Nat.mul_mod_mul_right ..
  have hmagnitude : IsMagnitude (m % n * one) := hmod ▸ isMagnitude_mod hm hn hn0
  rw [rem_finite, if_neg hn0, hmod, ofQuanta_self s hmagnitude]
  exact ⟨s, m % n, hmagnitude, rfl, signed_tmod s t m n⟩

/-- The sum is the double nearest to the exact sum. -/
theorem add_eq_ofInt (hx : x.IsWhole i) (hy : y.IsWhole j) (h : i + j ≠ 0) :
    x + y = ofInt (i + j) := by
  obtain ⟨s, m, hm, rfl, rfl⟩ := hx
  obtain ⟨t, n, hn, rfl, rfl⟩ := hy
  have hpos : (0 : Int) < one := Int.natCast_pos.mpr one_pos
  have hsum : signed s (m * one) + signed t (n * one) = (signed s m + signed t n) * one := by
    rw [signed_mul, signed_mul, Int.add_mul]
  generalize signed s m + signed t n = k at h hsum
  have hne : k * (one : Int) ≠ 0 := Int.mul_ne_zero h (Int.ne_of_gt hpos)
  have hneg : decide (k * (one : Int) < 0) = decide (k < 0) := by
    have hlt := Int.mul_lt_mul_right (a := one) (b := k) (c := 0) hpos
    rw [Int.zero_mul] at hlt
    exact decide_eq_decide.mpr hlt
  rw [add_finite, hsum, if_neg hne, hneg, Int.natAbs_mul, Int.natAbs_natCast]
  rfl

/-- A sum that is a double is not rounded. -/
theorem add (hx : x.IsWhole i) (hy : y.IsWhole j) (h : IsMagnitude ((i + j).natAbs * one)) :
    (x + y).IsWhole (i + j) := by
  by_cases hsum : i + j = 0
  · obtain ⟨s, m, hm, rfl, rfl⟩ := hx
    obtain ⟨t, n, hn, rfl, rfl⟩ := hy
    have hzero : signed s (m * one) + signed t (n * one) = 0 := by
      rw [signed_mul, signed_mul, ← Int.add_mul, hsum, Int.zero_mul]
    rw [add_finite, if_pos hzero, hsum]
    exact zero_isWhole (s && t)
  · rw [hx.add_eq_ofInt hy hsum]
    exact ofInt_isWhole h

theorem abs (hx : x.IsWhole i) : x.abs.IsWhole i.natAbs := by
  obtain ⟨s, n, h, rfl, rfl⟩ := hx
  rw [natAbs_signed]
  exact ⟨false, n, h, rfl, rfl⟩

theorem less (hx : x.IsWhole i) (hy : y.IsWhole j) : x.less y = decide (i < j) := by
  obtain ⟨s, m, hm, rfl, rfl⟩ := hx
  obtain ⟨t, n, hn, rfl, rfl⟩ := hy
  have hpos : (0 : Int) < one := Int.natCast_pos.mpr one_pos
  rw [less_finite, signed_mul, signed_mul]
  exact decide_eq_decide.mpr (Int.mul_lt_mul_right hpos)

theorem unique (hi : x.IsWhole i) (hj : x.IsWhole j) : i = j := by
  obtain ⟨s, m, hm, rfl, rfl⟩ := hi
  obtain ⟨t, n, hn, heq, rfl⟩ := hj
  obtain ⟨rfl, hmul⟩ := Binary64.finite.inj heq
  rw [Nat.eq_of_mul_eq_mul_right one_pos hmul]

end IsWhole

end Binary64

namespace Primitive

theorem foldNumbers_pair (op : String) (f : Binary64 → Binary64 → Binary64) (x y : Binary64) :
    foldNumbers op f (.number x) [.number y] = .ok (.value (.number (f x y))) := rfl

theorem reply_math (f : MathFunction) (x : Binary64) :
    (math f).reply [.number x] = .ok (.value (.number (f.apply x))) := rfl

end Primitive

end SmallScheme
