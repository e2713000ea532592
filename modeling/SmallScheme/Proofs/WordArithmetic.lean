import SmallScheme.Proofs.WholeNumber
import Mathlib.Data.Int.ModEq
import Mathlib.Data.Nat.Digits.Lemmas

/-! The word operations on doubles are exact.

The word of a double is its whole part modulo `2 ^ 32`. Neither the truncation nor the remainder rounds,
and the sum that moves a negative remainder up is a whole number below `2 ^ 32`, so it does not round
either and cannot reach `2 ^ 32`. -/
namespace SmallScheme

namespace Binary64

/-- A negative remainder of the division toward zero is moved up by the divisor. -/
theorem emod_eq_tmod_add (i : ℤ) {j : ℤ} (hj : 0 < j) :
    i % j = if i.tmod j < 0 then i.tmod j + j else i.tmod j := by
  have hmod : i.tmod j % j = i % j := by
    conv_rhs => rw [← Int.tmod_add_mul_tdiv i j, Int.add_mul_emod_self_left]
  have hlow := Int.lt_tmod_of_pos i hj
  have hhigh := Int.tmod_lt_of_pos i hj
  split
  · rw [← hmod, ← Int.add_emod_right, Int.emod_eq_of_lt (by omega) (by omega)]
  · rw [← hmod, Int.emod_eq_of_lt (by omega) hhigh]

/-- The remainder that is not negative, for a divisor that is a small whole number. -/
theorem IsWhole.remEuclid {x y : Binary64} {i j : ℤ} (hx : x.IsWhole i) (hy : y.IsWhole j)
    (hj : 0 < j) (hsmall : j ≤ 2 ^ 53) : (x.remEuclid y).IsWhole (i % j) := by
  have hr : (x % y).IsWhole (i.tmod j) := hx.rem hy hj.ne'
  have hzero : (0 : Binary64).IsWhole 0 := ofNat_isWhole (Nat.zero_le _)
  have hlt : i % j < j := Int.emod_lt_of_pos i hj
  have hnonneg : 0 ≤ i % j := Int.emod_nonneg i hj.ne'
  rw [Binary64.remEuclid, hr.less hzero]
  rw [emod_eq_tmod_add i hj] at hlt hnonneg ⊢
  by_cases hneg : i.tmod j < 0
  · rw [if_pos hneg] at hlt hnonneg ⊢
    have habs : y.abs.IsWhole j := Int.natAbs_of_nonneg hj.le ▸ hy.abs
    have hmagnitude : IsMagnitude ((i.tmod j + j).natAbs * one) := by
      refine isMagnitude_whole ?_
      change (i.tmod j + j).natAbs ≤ 2 ^ 53
      omega
    rw [if_pos (decide_eq_true hneg)]
    exact hr.add habs hmagnitude
  · rw [if_neg hneg, if_neg (by simpa using hneg)]
    exact hr

theorem IsWhole.clampWord {x : Binary64} {i : ℤ} (hx : x.IsWhole i) (h0 : 0 ≤ i)
    (hlt : i < 2 ^ 32) : (x.clampWord.toNat : ℤ) = i := by
  obtain ⟨s, n, h, rfl, rfl⟩ := hx
  cases s with
  | true =>
    have hn : signed true n = 0 := le_antisymm (neg_nonpos.mpr (Int.natCast_nonneg n)) h0
    rw [hn]
    rfl
  | false =>
    have hn : n < 2 ^ 32 := Int.ofNat_lt.mp hlt
    have hmin : Nat.min (n * one / one) (twoPow 32 - 1) = n := by
      rw [Nat.mul_div_cancel n one_pos]
      exact Nat.min_eq_left (Nat.le_pred_of_lt hn)
    have hclamp : (finite false (n * one) h).clampWord =
        UInt32.ofNat (Nat.min (n * one / one) (twoPow 32 - 1)) := rfl
    rw [hclamp, hmin, UInt32.toNat_ofNat_of_lt' hn]
    rfl

/-- The word of a double is its whole part modulo `2 ^ 32`. -/
theorem toWord_toNat (x : Binary64) : (x.toWord.toNat : ℤ) = x.wholePart % 2 ^ 32 := by
  cases hx : x.isFinite with
  | false =>
    cases x with
    | nan => rfl
    | infinite s => rfl
    | finite s n h => cases hx
  | true =>
    have hword : (4294967296 : Binary64).IsWhole (2 ^ 32) :=
      ofNat_isWhole (n := 4294967296) (by decide)
    have hrem := (trunc_isWhole hx).remEuclid hword (by decide) (by decide)
    rw [toWord, if_pos hx]
    exact hrem.clampWord (Int.emod_nonneg _ (by decide)) (Int.emod_lt_of_pos _ (by decide))

/-- Read as a signed word, the word of a double is still its whole part modulo `2 ^ 32`. -/
theorem toInt32_modEq (x : Binary64) : x.toWord.toInt32.toInt ≡ x.wholePart [ZMOD 2 ^ 32] := by
  have hsigned : x.toWord.toInt32.toInt = (x.toWord.toNat : ℤ).bmod (2 ^ 32) :=
    BitVec.toInt_eq_toNat_bmod x.toWord.toBitVec
  rw [hsigned, toWord_toNat]
  exact Int.bmod_emod.trans (Int.emod_emod_of_dvd _ dvd_rfl)

theorem wordProduct_modEq (x y : Binary64) :
    x.wordProduct y ≡ x.wholePart * y.wholePart [ZMOD 2 ^ 32] := by
  have hwrap : x.wordProduct y ≡ x.toWord.toInt32.toInt * y.toWord.toInt32.toInt [ZMOD 2 ^ 32] := by
    rw [wordProduct, Int32.toInt_mul]
    exact Int.bmod_emod
  exact hwrap.trans ((toInt32_modEq x).mul (toInt32_modEq y))

/-- What is left of 32 binary digits. -/
theorem leadingZeros_eq (x : Binary64) :
    (x.leadingZeros : ℤ) = 32 - (Nat.digits 2 (x.wholePart % 2 ^ 32).toNat).length := by
  have hword : (x.wholePart % 2 ^ 32).toNat = x.toWord.toNat := by
    rw [← toWord_toNat, Int.toNat_natCast]
  rw [hword, leadingZeros]
  by_cases h0 : x.toWord = 0
  · rw [if_pos h0, h0]
    rfl
  · have hne : x.toWord.toNat ≠ 0 := fun h => h0 (UInt32.toNat_inj.mp h)
    have hlog : x.toWord.toNat.log2 < 32 := (Nat.log2_lt hne).mpr x.toWord.toNat_lt
    rw [if_neg h0, Nat.length_digits 2 _ (by decide) hne, ← Nat.log2_eq_log_two]
    omega

end Binary64

namespace Primitive

open Binary64

/-- The product of whole parts wraps to the signed words, and leading zeros are counted in the
unsigned ones, for doubles of any size. -/
theorem word_operations_exact (x y : Binary64) :
    (∃ z i, imul.reply [.number x, .number y] = .ok (.value (.number z)) ∧ z.IsWhole i ∧
      ∀ j, j = i ↔ -2 ^ 31 ≤ j ∧ j < 2 ^ 31 ∧ j ≡ x.wholePart * y.wholePart [ZMOD 2 ^ 32]) ∧
    ∃ z, (math .clz32).reply [.number x] = .ok (.value (.number z)) ∧
      z.IsWhole (32 - (Nat.digits 2 (x.wholePart % 2 ^ 32).toNat).length) := by
  constructor
  · have hlow : -2 ^ 31 ≤ x.wordProduct y := Int32.le_toInt _
    have hhigh : x.wordProduct y < 2 ^ 31 := Int32.toInt_lt _
    have hmod := wordProduct_modEq x y
    refine ⟨_, x.wordProduct y, foldNumbers_pair _ _ x y,
      ofInt_isWhole (isMagnitude_whole ?_), fun j => ?_⟩
    · change (x.wordProduct y).natAbs ≤ 2 ^ 53
      omega
    · constructor
      · rintro rfl
        exact ⟨hlow, hhigh, hmod⟩
      · rintro ⟨hjlow, hjhigh, hj⟩
        -- two numbers that differ by a multiple of the width are not both in the range
        have hdiff := (hj.trans hmod.symm).dvd
        omega
  · rw [← leadingZeros_eq]
    refine ⟨_, reply_math .clz32 x, ofNat_isWhole ?_⟩
    have hle : x.leadingZeros ≤ 32 := by
      have := leadingZeros_eq x
      omega
    exact hle.trans (by decide)

end Primitive

end SmallScheme
