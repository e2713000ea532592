import SmallScheme.Proofs.WholeNumber
import Mathlib.Data.Rat.Floor
import Mathlib.Tactic.LinearCombination

/-! The remainder that takes the sign of the divisor, on whole numbers.

It is computed from the remainder toward zero: the divisor is added, and the remainder of the sum is
taken. The sum has at most 54 bits. When it has 54 and is odd it is not a double, and rounding moves it
by one, so that the result is the remainder of a neighbour of the dividend. -/
namespace SmallScheme

/-- The remainder of the division that rounds down. -/
def flooredRemainder (x y : ℤ) : ℤ := x - y * ⌊(x : ℚ) / y⌋

/-- What is smaller than the divisor and does not have the opposite sign. -/
def IsResidue (y i : ℤ) : Prop := (0 ≤ i ∧ i < y) ∨ (y < i ∧ i ≤ 0)

/-- A residue that differs from the dividend by a multiple of the divisor is its remainder. -/
theorem eq_flooredRemainder {x y i : ℤ} (hi : IsResidue y i) (hdvd : y ∣ x - i) :
    i = flooredRemainder x y := by
  obtain ⟨q, hq⟩ := hdvd
  have hx : x = y * q + i := by omega
  have hfloor : ⌊(x : ℚ) / y⌋ = q := by
    rcases hi with ⟨hlow, hhigh⟩ | ⟨hlow, hhigh⟩
    · have hy : (0 : ℚ) < y := by exact_mod_cast hlow.trans_lt hhigh
      have hlow' : (0 : ℚ) ≤ i := by exact_mod_cast hlow
      have hhigh' : (i : ℚ) < y := by exact_mod_cast hhigh
      rw [Int.floor_eq_iff, le_div_iff₀ hy, div_lt_iff₀ hy, hx]
      push_cast
      constructor <;> linarith
    · have hy : (y : ℚ) < 0 := by exact_mod_cast hlow.trans_le hhigh
      have hlow' : (y : ℚ) < i := by exact_mod_cast hlow
      have hhigh' : (i : ℚ) ≤ 0 := by exact_mod_cast hhigh
      rw [Int.floor_eq_iff, le_div_iff_of_neg hy, div_lt_iff_of_neg hy, hx]
      push_cast
      constructor <;> linarith
  rw [flooredRemainder, hfloor, hx]
  omega

theorem dvd_sub_flooredRemainder (x y : ℤ) : y ∣ x - flooredRemainder x y :=
  ⟨⌊(x : ℚ) / y⌋, sub_sub_cancel _ _⟩

theorem natAbs_tmod_lt (x : ℤ) {y : ℤ} (hy : y ≠ 0) : (x.tmod y).natAbs < y.natAbs := by
  rw [Int.natAbs_tmod]
  exact Nat.mod_lt _ (Int.natAbs_pos.mpr hy)

/-- The remainder toward zero is a residue of a divisor with the sign of the dividend. -/
theorem isResidue_tmod {s y : ℤ} (h : (0 < y ∧ 0 ≤ s) ∨ (y < 0 ∧ s ≤ 0)) :
    IsResidue y (s.tmod y) := by
  rcases h with ⟨hy, hs⟩ | ⟨hy, hs⟩
  · exact Or.inl ⟨Int.tmod_nonneg y hs, Int.tmod_lt_of_pos s hy⟩
  · have hneg : 0 ≤ (-s).tmod y := Int.tmod_nonneg y (neg_nonneg.mpr hs)
    have hlt := natAbs_tmod_lt s hy.ne
    rw [Int.neg_tmod] at hneg
    exact Or.inr ⟨by omega, by omega⟩

namespace Binary64

/-- The whole numbers of at most 54 bits that are doubles. -/
def FitsDouble (s : ℤ) : Prop := s.natAbs ≤ 2 ^ 53 ∨ 2 ∣ s

/-- A whole number of at most 54 bits becomes a double without rounding, or it is moved to the
neighbouring multiple of four. -/
def IsCorrection (s e : ℤ) : Prop :=
  (FitsDouble s ∧ e = 0) ∨ (¬ FitsDouble s ∧ (e = 1 ∨ e = -1) ∧ 4 ∣ s + e)

theorem signed_double (s : ℤ) (q : ℕ) :
    signed (decide (s < 0)) (q * twoPow 1) = if s < 0 then -(2 * q : ℤ) else 2 * q := by
  have hdouble : ((q * twoPow 1 : ℕ) : ℤ) = 2 * q := Int.mul_comm q 2
  by_cases hs : s < 0
  · rw [signed, if_pos (decide_eq_true hs), if_pos hs, hdouble]
  · rw [signed, if_neg (by simpa using hs), if_neg hs, hdouble]

theorem ofInt_isWhole_correction {s : ℤ} (h : s.natAbs ≤ 2 ^ 54) :
    ∃ e, IsCorrection s e ∧ (ofInt s).IsWhole (s + e) := by
  have hmultiple {q : ℕ} (hq : q ≤ twoPow 53) : IsMagnitude (q * twoPow 1 * one) :=
    isMagnitude_scaled hq (by decide)
  by_cases hfits : FitsDouble s
  · have hmagnitude : IsMagnitude (s.natAbs * one) := by
      rcases hfits with hsmall | ⟨q, rfl⟩
      · exact isMagnitude_whole hsmall
      · rw [Int.natAbs_mul, Nat.mul_comm (2 : ℤ).natAbs]
        refine hmultiple ?_
        change q.natAbs ≤ 2 ^ 53
        omega
    exact ⟨0, Or.inl ⟨hfits, rfl⟩, (add_zero s).symm ▸ ofInt_isWhole hmagnitude⟩
  · obtain ⟨hwide, hodd⟩ := not_or.mp hfits
    obtain ⟨q, hq, heven, hnext, hround⟩ := round_odd (n := s.natAbs) (by omega)
      (not_le.mp hwide).le (h.lt_of_ne (by omega))
    have hof : ofInt s = ofQuanta (decide (s < 0)) (s.natAbs * one) 1 := rfl
    refine ⟨signed (decide (s < 0)) (q * twoPow 1) - s, Or.inr ⟨hfits, ?_⟩, ?_⟩
    · rw [signed_double]
      split <;> omega
    · rw [hof, ofQuanta_eq_finite _ hround (hmultiple hq)]
      exact ⟨_, _, hmultiple hq, rfl, by omega⟩

end Binary64

namespace Primitive

open Binary64

/-- The divisor is added to the remainder toward zero; the remainder of the sum is a residue of the
divisor, and it belongs to the dividend if the sum is not rounded. -/
theorem modulo_correction {a b : Binary64} {x y : ℤ} (ha : a.IsWhole x) (hb : b.IsWhole y)
    (hy : y.natAbs < 2 ^ 53) (h0 : y ≠ 0) :
    ∃ z i e, modulo.reply [.number a, .number b] = .ok (.value (.number z)) ∧ z.IsWhole i ∧
      IsResidue y i ∧ IsCorrection (x.tmod y + y) e ∧ i = flooredRemainder (x + e) y := by
  have hr := natAbs_tmod_lt x h0
  have hsum : x.tmod y + y ≠ 0 := by omega
  obtain ⟨e, he, hs⟩ := ofInt_isWhole_correction (s := x.tmod y + y) (by omega)
  rw [← (ha.rem hb h0).add_eq_ofInt hb hsum] at hs
  -- the sum has the sign of the divisor, also after it is rounded
  have hsign : (0 < y ∧ 0 ≤ x.tmod y + y + e) ∨ (y < 0 ∧ x.tmod y + y + e ≤ 0) := by
    rcases he with ⟨-, rfl⟩ | ⟨hfits, he, -⟩
    · omega
    · have hwide := not_le.mp (not_or.mp hfits).1
      omega
  have hresidue := isResidue_tmod hsign
  refine ⟨_, _, e, foldNumbers_pair _ _ a b, hs.rem hb h0, hresidue, he, ?_⟩
  refine eq_flooredRemainder hresidue ?_
  have hx := Int.tmod_add_mul_tdiv x y
  have hsum' := Int.tmod_add_mul_tdiv (x.tmod y + y + e) y
  refine ⟨x.tdiv y + (x.tmod y + y + e).tdiv y - 1, ?_⟩
  linear_combination -hx - hsum'

/-- For a safe divisor the result is the floored remainder exactly if the sum of the remainder toward
zero and the divisor is a double. Otherwise it is the floored remainder of the neighbour of the dividend
whose sum is a multiple of four. The dividend may be any whole double. -/
theorem modulo_floored {a b : Binary64} {x y : ℤ} (ha : a.IsWhole x) (hb : b.IsWhole y)
    (hy : |y| ≤ 2 ^ 53 - 1) (h0 : y ≠ 0) :
    ∃ z i, modulo.reply [.number a, .number b] = .ok (.value (.number z)) ∧ z.IsWhole i ∧
      IsResidue y i ∧
      (FitsDouble (x.tmod y + y) → i = flooredRemainder x y) ∧
      (¬ FitsDouble (x.tmod y + y) → i ≠ flooredRemainder x y ∧
        ∃ e, (e = 1 ∨ e = -1) ∧ 4 ∣ x.tmod y + y + e ∧ i = flooredRemainder (x + e) y) := by
  rw [Int.abs_eq_natAbs] at hy
  obtain ⟨z, i, e, hreply, hz, hi, he, heq⟩ := modulo_correction ha hb (by omega) h0
  refine ⟨z, i, hreply, hz, hi, fun hfits => ?_, fun hfits => ?_⟩
  · obtain ⟨-, rfl⟩ := he.resolve_right fun h => h.1 hfits
    rwa [add_zero] at heq
  · obtain ⟨-, hunit, hfour⟩ := he.resolve_left fun h => hfits h.1
    refine ⟨fun hsame => hfits (Or.inl ?_), e, hunit, hfour, heq⟩
    -- equal remainders of neighbours need a divisor of size one
    have hdvd : y ∣ e := by
      have hdiff := Int.dvd_sub (dvd_sub_flooredRemainder (x + e) y) (dvd_sub_flooredRemainder x y)
      rw [← heq, ← hsame] at hdiff
      have hcancel : x + e - i - (x - i) = e := by omega
      rwa [hcancel] at hdiff
    have hle : y.natAbs ≤ e.natAbs := Int.natAbs_le_of_dvd_ne_zero hdvd (by omega)
    have hr := natAbs_tmod_lt x h0
    omega

/-- The greatest safe divisor, and a dividend just below it. -/
theorem modulo_floored_greatest :
    ∃ z, modulo.reply [.number (ofInt 9007199254740990), .number (ofInt 9007199254740991)] =
      .ok (.value (.number z)) ∧ z.IsWhole 9007199254740989 := by
  have ha : (ofInt 9007199254740990).IsWhole 9007199254740990 :=
    ofInt_isWhole (isMagnitude_whole (by decide))
  have hb : (ofInt 9007199254740991).IsWhole 9007199254740991 :=
    ofInt_isWhole (isMagnitude_whole (by decide))
  obtain ⟨z, i, hreply, hz, -, -, hround⟩ := modulo_floored ha hb (by decide) (by decide)
  obtain ⟨-, e, he, hfour, hi⟩ := hround (by unfold FitsDouble; decide)
  have hsum : Int.tmod 9007199254740990 9007199254740991 = 9007199254740990 := by decide
  have hdown : e = -1 := by omega
  refine ⟨z, hreply, ?_⟩
  rw [hi, hdown, ← eq_flooredRemainder (i := 9007199254740989) (Or.inl (by decide)) (by decide)] at hz
  exact hz

/-- The sum of the dividend and the divisor here is rounded up to twice the divisor, which leaves
nothing. -/
theorem modulo_loses_dividend :
    ∃ z, modulo.reply [.number (ofInt 4503599627370497), .number (ofInt 4503599627370498)] =
      .ok (.value (.number z)) ∧ z.IsWhole 0 ∧
      ¬ z.IsWhole (flooredRemainder 4503599627370497 4503599627370498) := by
  have ha : (ofInt 4503599627370497).IsWhole 4503599627370497 :=
    ofInt_isWhole (isMagnitude_whole (by decide))
  have hb : (ofInt 4503599627370498).IsWhole 4503599627370498 :=
    ofInt_isWhole (isMagnitude_whole (by decide))
  obtain ⟨z, i, e, hreply, hz, -, he, hi⟩ := modulo_correction ha hb (by decide) (by decide)
  have hsum : Int.tmod 4503599627370497 4503599627370498 = 4503599627370497 := by decide
  have hup : e = 1 := by
    obtain ⟨-, he, hfour⟩ := he.resolve_left fun h => absurd h.1 (by unfold FitsDouble; decide)
    omega
  rw [hi, hup, ← eq_flooredRemainder (i := 0) (Or.inl (by decide)) (by decide)] at hz
  refine ⟨z, hreply, hz, fun hother => ?_⟩
  rw [← eq_flooredRemainder (i := 4503599627370497) (Or.inl (by decide)) (by decide)] at hother
  exact absurd (hz.unique hother) (by decide)

end Primitive

end SmallScheme
