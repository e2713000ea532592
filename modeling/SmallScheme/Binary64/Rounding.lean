/-!
Rounding a ratio of whole numbers to a binary floating-point grid, to nearest with ties to even.

Magnitudes are counted in quanta of `2^-1074`, the least positive double, so that every finite
double is a whole number of quanta and sums, remainders and comparisons are integer operations.
-/
namespace SmallScheme

/-- Two to the power `k`. -/
abbrev twoPow (k : Nat) : Nat := Nat.pow 2 k

theorem twoPow_pos (k : Nat) : 0 < twoPow k := Nat.two_pow_pos k

/-- A binary floating-point grid: significant bits, and the binary logarithms, in quanta, of its
finest spacing and of the first magnitude out of its range. -/
structure Grid where
  precision : Nat
  finest : Nat
  limit : Nat
  precision_pos : 0 < precision

namespace Grid

/-- The grid of doubles. -/
def double : Grid := ⟨53, 0, 2098, by decide⟩

/-- The grid of single-precision numbers. -/
def single : Grid := ⟨24, 925, 1202, by decide⟩

/-- The binary logarithm of the spacing of grid points around `n` quanta. -/
def shift (g : Grid) (n : Nat) : Nat := max g.finest (n.log2 + 1 - g.precision)

/-- The spacing of grid points around `n` quanta. -/
def spacing (g : Grid) (n : Nat) : Nat := twoPow (g.shift n)

end Grid

/-- The whole number nearest to `n / d`; a half goes to the even neighbour. -/
def nearestEven (n d : Nat) : Nat :=
  if 2 * (n % d) < d ∨ (2 * (n % d) = d ∧ n / d % 2 = 0) then n / d else n / d + 1

namespace Grid

/-- The point of the unbounded grid nearest to `n / d` quanta, ties to even. -/
def round (g : Grid) (n d : Nat) : Nat :=
  let u := g.spacing (n / d)
  nearestEven n (d * u) * u

theorem spacing_pos (g : Grid) (n : Nat) : 0 < g.spacing n := twoPow_pos _

theorem div_spacing_lt (g : Grid) (n : Nat) : n / g.spacing n < twoPow g.precision := by
  rw [Nat.div_lt_iff_lt_mul (g.spacing_pos n)]
  have h1 : n < 2 ^ (n.log2 + 1) := Nat.lt_log2_self
  have h2 : n.log2 + 1 ≤ g.precision + g.shift n := by
    unfold shift
    omega
  calc n < 2 ^ (n.log2 + 1) := h1
    _ ≤ 2 ^ (g.precision + g.shift n) := Nat.pow_le_pow_right (by decide) h2
    _ = twoPow g.precision * g.spacing n := Nat.pow_add ..

/-- Numbers of at most `precision` bits lie on the grid when they are scaled to its spacing. -/
theorem spacing_dvd_mul (g : Grid) {q k : Nat} (hk : g.finest ≤ k)
    (hq : q ≤ twoPow g.precision) : g.spacing (q * twoPow k) ∣ q * twoPow k := by
  by_cases h0 : q = 0
  · simp [h0]
  rcases Nat.lt_or_eq_of_le hq with h | h
  · have hlt : q * 2 ^ k < 2 ^ (g.precision + k) := by
      rw [Nat.pow_add]
      exact Nat.mul_lt_mul_of_pos_right h (Nat.two_pow_pos k)
    have hne : q * 2 ^ k ≠ 0 := Nat.mul_ne_zero h0 (Nat.ne_of_gt (Nat.two_pow_pos k))
    have hlog : (q * 2 ^ k).log2 < g.precision + k := (Nat.log2_lt hne).mpr hlt
    have hs : g.shift (q * twoPow k) ≤ k := by
      change max g.finest ((q * 2 ^ k).log2 + 1 - g.precision) ≤ k
      omega
    exact Nat.dvd_trans (Nat.pow_dvd_pow 2 hs) (Nat.dvd_mul_left ..)
  · subst h
    have hp := g.precision_pos
    have hpow : twoPow g.precision * twoPow k = 2 ^ (g.precision + k) := (Nat.pow_add ..).symm
    rw [hpow]
    refine Nat.pow_dvd_pow 2 ?_
    simp only [shift, Nat.log2_two_pow]
    omega

/-- Rounding lands on the grid. -/
theorem spacing_round_dvd (g : Grid) (n d : Nat) : g.spacing (g.round n d) ∣ g.round n d := by
  have hq : nearestEven n (d * g.spacing (n / d)) ≤ twoPow g.precision := by
    have h := g.div_spacing_lt (n / d)
    rw [Nat.div_div_eq_div_mul] at h
    unfold nearestEven
    split <;> omega
  exact g.spacing_dvd_mul (Nat.le_max_left ..) hq

end Grid

end SmallScheme
