import SmallScheme.Binary64.Decimal

/-! Rounding and decimals: the shortest decimal of a double rounds back to it. -/
namespace SmallScheme

theorem nearestEven_mul_right (n d : Nat) {k : Nat} (hk : 0 < k) :
    nearestEven (n * k) (d * k) = nearestEven n d := by
  have hlt : 2 * (n * k % (d * k)) < d * k ↔ 2 * (n % d) < d := by
    rw [Nat.mul_mod_mul_right, ← Nat.mul_assoc]
    exact Nat.mul_lt_mul_right hk
  have heq : 2 * (n * k % (d * k)) = d * k ↔ 2 * (n % d) = d := by
    rw [Nat.mul_mod_mul_right, ← Nat.mul_assoc]
    exact Nat.mul_left_inj (Nat.ne_of_gt hk)
  unfold nearestEven
  simp only [Nat.mul_div_mul_right n d hk, hlt, heq]

theorem nearestEven_mul_self (q : Nat) {d : Nat} (hd : 0 < d) : nearestEven (q * d) d = q := by
  unfold nearestEven
  rw [Nat.mul_mod_left, Nat.mul_div_cancel q hd]
  exact if_pos (Or.inl hd)

namespace Grid

theorem round_mul_right (g : Grid) (n d : Nat) {k : Nat} (hk : 0 < k) :
    g.round (n * k) (d * k) = g.round n d := by
  have hmul (u : Nat) : d * k * u = d * u * k := by ac_rfl
  unfold round
  dsimp only
  rw [Nat.mul_div_mul_right n d hk, hmul, nearestEven_mul_right n _ hk]

/-- Equal fractions round to the same point. -/
theorem round_eq_of_cross (g : Grid) {m n c d : Nat} (hc : 0 < c) (hd : 0 < d)
    (h : m * d = n * c) : g.round m c = g.round n d := by
  rw [← g.round_mul_right m c hd, ← g.round_mul_right n d hc, h, Nat.mul_comm c d]

/-- What is on the grid stays where it is. -/
theorem round_self (g : Grid) {n : Nat} (h : g.spacing n ∣ n) : g.round n 1 = n := by
  obtain ⟨q, hq⟩ := h
  have hmul : n = q * g.spacing n := by rw [Nat.mul_comm, ← hq]
  unfold round
  dsimp only
  rw [Nat.div_one, Nat.one_mul]
  have hnear : nearestEven n (g.spacing n) = q := by
    conv => lhs; arg 1; rw [hmul]
    exact nearestEven_mul_self q (g.spacing_pos n)
  rw [hnear, ← hmul]

/-- Less than half a quantum is nothing. -/
theorem round_small (g : Grid) {n d : Nat} (h : 2 * n < d) : g.round n d = 0 := by
  have hle : d ≤ d * g.spacing (n / d) := Nat.le_mul_of_pos_right d (g.spacing_pos _)
  have hlt : n < d * g.spacing (n / d) := by omega
  unfold round nearestEven
  dsimp only
  rw [Nat.mod_eq_of_lt hlt, Nat.div_eq_of_lt hlt, if_pos (Or.inl (Nat.lt_of_lt_of_le h hle)),
    Nat.zero_mul]

end Grid

namespace Binary64

/-- The exponent is given by name, so that nothing evaluates the power. -/
theorem one_eq : ∃ k, k = 1074 ∧ one = twoPow k := by
  refine ⟨_, rfl, ?_⟩
  unfold one
  with_reducible rfl

theorem ofQuanta_congr (negative : Bool) {n d n' d' : Nat}
    (h : Grid.double.round n d = Grid.double.round n' d') :
    ofQuanta negative n d = ofQuanta negative n' d' := by
  unfold ofQuanta
  simp only [h]

theorem ofQuanta_eq_finite (negative : Bool) {n d m : Nat} (h : Grid.double.round n d = m)
    (hm : IsMagnitude m) : ofQuanta negative n d = .finite negative m hm := by
  subst h
  exact dif_pos hm.1

theorem ofQuanta_ne_nan (negative : Bool) (n d : Nat) : ofQuanta negative n d ≠ .nan := by
  unfold ofQuanta
  split <;> nofun

end Binary64

namespace Decimal

theorem ratio_den_pos (d : Decimal) : 0 < d.ratio.2 := by
  unfold ratio
  split
  · exact Nat.one_pos
  · exact Nat.pow_pos (by decide)

/-- The point of the grid nearest to the decimal, in quanta. -/
def rounded (d : Decimal) : Nat := Grid.double.round (d.ratio.1 * Binary64.one) d.ratio.2

theorem ratio_neg (m k : Nat) : ratio ⟨m, -(k : Int)⟩ = (m, Nat.pow 10 k) := by
  unfold ratio
  dsimp only
  by_cases hk : k = 0
  · subst hk
    simp
  · rw [if_neg (by omega), Int.neg_neg, Int.toNat_natCast]

theorem two_mul_lt_ten_pow {n l k p : Nat} (hn : n < twoPow (l + 1)) (hp : l + 1 + (k + 1) ≤ 3 * p) :
    2 * (n * twoPow k) < Nat.pow 10 p := by
  calc 2 * (n * 2 ^ k) = n * 2 ^ (k + 1) := by rw [Nat.pow_succ]; ac_rfl
    _ < 2 ^ (l + 1) * 2 ^ (k + 1) := Nat.mul_lt_mul_of_pos_right hn (Nat.two_pow_pos _)
    _ = 2 ^ (l + 1 + (k + 1)) := (Nat.pow_add ..).symm
    _ ≤ 2 ^ (3 * p) := Nat.pow_le_pow_right (by decide) hp
    _ = 8 ^ p := Nat.pow_mul ..
    _ ≤ 10 ^ p := Nat.pow_le_pow_left (by decide) p

/-- A decimal that is small for its exponent is less than half a quantum. -/
theorem rounded_small {d : Decimal} (h : d.exponent + d.digits.log2 < -400) : d.rounded = 0 := by
  obtain ⟨p, hp⟩ : ∃ p : Nat, d.exponent = -(p : Int) := ⟨(-d.exponent).toNat, by omega⟩
  have hratio : d.ratio = (d.digits, Nat.pow 10 p) := by
    rw [← ratio_neg, ← hp]
  have hdigits : d.digits < 2 ^ (d.digits.log2 + 1) := Nat.lt_log2_self
  obtain ⟨k, hk, hone⟩ := Binary64.one_eq
  have hlt : 2 * (d.digits * Binary64.one) < Nat.pow 10 p := by
    rw [hone]
    exact two_mul_lt_ten_pow hdigits (by omega)
  unfold rounded
  rw [hratio]
  exact Grid.round_small _ hlt

/-- Unless its exponent is out of range, a decimal gives the nearest double. -/
theorem toBinary64_eq (negative : Bool) {d : Decimal} (h : d.exponent ≤ 400) :
    d.toBinary64 negative = .ofQuanta negative (d.ratio.1 * Binary64.one) d.ratio.2 := by
  have hzero : d.rounded = 0 →
      Binary64.zero negative = .ofQuanta negative (d.ratio.1 * Binary64.one) d.ratio.2 := by
    intro h0
    refine Binary64.ofQuanta_congr negative ?_
    exact (Grid.round_small _ (by decide)).trans h0.symm
  unfold toBinary64
  split
  · next hd =>
    -- without digits every denominator gives zero
    refine hzero ?_
    unfold rounded ratio
    rw [hd]
    refine Grid.round_small _ ?_
    split
    · simp
    · simp only [Nat.zero_mul, Nat.mul_zero]
      exact Nat.pow_pos (by decide)
  rw [if_neg (by omega)]
  -- the shortcut for small decimals gives what rounding would
  split
  · next hlow => exact hzero (rounded_small hlow)
  · rfl

theorem rounded_of_readsAs {d : Decimal} {n : Nat} (hn : n ≠ 0) (h : d.readsAs n = true) :
    d.exponent ≤ 400 ∧ d.rounded = n := by
  unfold readsAs at h
  have hdigits : d.digits ≠ 0 := by
    intro h0
    have hzero : d.toBinary64 false = .finite false 0 ⟨twoPow_pos _, Nat.dvd_zero _⟩ := by
      rw [toBinary64, if_pos h0]
      exact Binary64.ofQuanta_eq_finite false (Grid.round_small _ (by decide)) _
    rw [hzero] at h
    exact hn (of_decide_eq_true h).symm
  have hexp : d.exponent ≤ 400 := by
    refine Int.not_lt.mp fun hlt => ?_
    rw [toBinary64, if_neg hdigits, if_pos hlt] at h
    cases h
  refine ⟨hexp, ?_⟩
  rw [toBinary64_eq false hexp, Binary64.ofQuanta] at h
  by_cases hlt : Grid.double.round (d.ratio.1 * Binary64.one) d.ratio.2 < twoPow Grid.double.limit
  · rw [dif_pos hlt] at h
    exact of_decide_eq_true h
  · rw [dif_neg hlt] at h
    cases h

theorem mul_five_pow_two_pow (n k : Nat) :
    n * Nat.pow 5 k * Nat.pow 2 k * 1 = n * Nat.pow 10 k := by
  calc n * 5 ^ k * 2 ^ k * 1 = n * (5 ^ k * 2 ^ k) := by rw [Nat.mul_one, Nat.mul_assoc]
    _ = n * 10 ^ k := by rw [← Nat.mul_pow]

/-- The decimal with all digits of a double rounds to it. -/
theorem rounded_exactly {n : Nat} (hn : IsMagnitude n) : (exactly n).rounded = n := by
  obtain ⟨k, hk, hone⟩ := Binary64.one_eq
  have hratio : (exactly n).ratio = (n * Nat.pow 5 k, Nat.pow 10 k) := by
    have hneg : (-1074 : Int) = -(k : Int) := by omega
    rw [exactly, ← hk, hneg, ratio_neg]
  unfold rounded
  rw [hratio, hone]
  exact (Grid.round_eq_of_cross _ (Nat.pow_pos (by decide)) Nat.one_pos
    (mul_five_pow_two_pow n k)).trans (Grid.round_self _ hn.2)

/-- The shortest decimal of a double rounds to it. -/
theorem rounded_shortest {n : Nat} (hn : n ≠ 0) (hm : IsMagnitude n) :
    (shortest n).exponent ≤ 400 ∧ (shortest n).rounded = n := by
  rw [shortest]
  cases hfind : (List.range 17).findSome? fun (k : Nat) => onGrid? n (leadingExponent n - k) with
  -- the search gives up after enough digits, and all digits always do
  | none => exact ⟨(by decide : (-1074 : Int) ≤ 400), rounded_exactly hm⟩
  | some d =>
    obtain ⟨k, _, hgrid⟩ := List.exists_of_findSome?_eq_some hfind
    unfold onGrid? at hgrid
    have hreads := List.find?_some hgrid
    exact rounded_of_readsAs hn hreads

/-- A decimal with the value of another one rounds alike. -/
theorem rounded_eq_of_cross {c d : Decimal} (h : c.ratio.1 * d.ratio.2 = d.ratio.1 * c.ratio.2) :
    c.rounded = d.rounded := by
  refine Grid.round_eq_of_cross _ c.ratio_den_pos d.ratio_den_pos ?_
  rw [Nat.mul_right_comm, h, Nat.mul_right_comm]

end Decimal

end SmallScheme
