import SmallScheme.Proofs.Decimal

/-! Rounding to nearest: no number of the format is nearer, and of two that are equally near the one with
the even significand is taken.

Near a ratio that is out of the finest range the grid is coarser above a power of two than below it.
The power itself lies on both, and below it nothing is nearer than the power. -/
namespace SmallScheme

/-- How far a whole number is from `n / d`, in units of `1 / d`. -/
def distance (n d m : Nat) : Nat := ((m * d : Nat) - n : Int).natAbs

theorem distance_of_le {n d m : Nat} (h : m * d ≤ n) : distance n d m = n - m * d := by
  unfold distance
  omega

theorem distance_of_ge {n d m : Nat} (h : n ≤ m * d) : distance n d m = m * d - n := by
  unfold distance
  omega

theorem nearestEven_eq (n d : Nat) : nearestEven n d = n / d ∨ nearestEven n d = n / d + 1 := by
  unfold nearestEven
  split
  · exact Or.inl rfl
  · exact Or.inr rfl

/-- Whole numbers up to the quotient are at least as far away as the quotient. -/
theorem distance_of_le_div {n d k : Nat} (h : k ≤ n / d) :
    distance n d k = n % d + (n / d - k) * d := by
  obtain ⟨j, hj⟩ := Nat.exists_eq_add_of_le h
  have hn := Nat.div_add_mod' n d
  rw [hj, Nat.add_mul] at hn
  rw [distance_of_le (by omega), hj, Nat.add_sub_cancel_left]
  omega

/-- Whole numbers above the quotient are at least as far away as its successor. -/
theorem distance_of_div_lt {n d k : Nat} (hd : 0 < d) (h : n / d < k) :
    distance n d k = d - n % d + (k - (n / d + 1)) * d := by
  obtain ⟨j, hj⟩ : ∃ j, k = n / d + 1 + j := Nat.exists_eq_add_of_le h
  have hn := Nat.div_add_mod' n d
  have hr := Nat.mod_lt n hd
  have hk : k * d = n / d * d + d + j * d := by rw [hj, Nat.add_mul, Nat.succ_mul]
  have hj' : k - (n / d + 1) = j := by omega
  rw [distance_of_ge (by omega), hj']
  omega

/-- No whole number is nearer than the nearest, and a whole number that is as near makes it even. -/
theorem nearestEven_nearest (n : Nat) {d : Nat} (hd : 0 < d) (k : Nat) :
    distance n d (nearestEven n d) ≤ distance n d k ∧
      (distance n d (nearestEven n d) = distance n d k → k ≠ nearestEven n d →
        nearestEven n d % 2 = 0) := by
  have hr := Nat.mod_lt n hd
  have hfloor : distance n d (n / d) = n % d := by
    rw [distance_of_le_div (Nat.le_refl _), Nat.sub_self, Nat.zero_mul, Nat.add_zero]
  have hceil : distance n d (n / d + 1) = d - n % d := by
    rw [distance_of_div_lt hd (Nat.lt_succ_self _), Nat.sub_self, Nat.zero_mul, Nat.add_zero]
  -- what is beyond the two neighbours is further away than they are by at least one step
  have hbelow (hk : k < n / d) : n % d + d ≤ distance n d k := by
    rw [distance_of_le_div (Nat.le_of_lt hk)]
    exact Nat.add_le_add_left (Nat.le_mul_of_pos_left d (Nat.sub_pos_of_lt hk)) _
  have habove (hk : n / d + 1 < k) : d - n % d + d ≤ distance n d k := by
    rw [distance_of_div_lt hd (Nat.lt_of_succ_lt hk)]
    exact Nat.add_le_add_left (Nat.le_mul_of_pos_left d (Nat.sub_pos_of_lt hk)) _
  have hcases : k < n / d ∨ k = n / d ∨ k = n / d + 1 ∨ n / d + 1 < k := by omega
  unfold nearestEven
  split
  · rcases hcases with hk | rfl | rfl | hk
    · have := hbelow hk
      omega
    · omega
    · omega
    · have := habove hk
      omega
  · rcases hcases with hk | rfl | rfl | hk
    · have := hbelow hk
      omega
    · omega
    · omega
    · have := habove hk
      omega

namespace Grid

theorem log2_le_log2 {m n : Nat} (h : m ≤ n) : m.log2 ≤ n.log2 := by
  by_cases hm : m = 0
  · subst hm
    exact Nat.zero_le _
  · have hn : n ≠ 0 := by omega
    exact (Nat.le_log2 hn).mpr (Nat.le_trans (Nat.log2_self_le hm) h)

theorem shift_mono (g : Grid) {m n : Nat} (h : m ≤ n) : g.shift m ≤ g.shift n := by
  have := log2_le_log2 h
  unfold shift
  omega

/-- The grid is nowhere finer than further down. -/
theorem spacing_dvd_spacing (g : Grid) {m n : Nat} (h : m ≤ n) : g.spacing m ∣ g.spacing n :=
  Nat.pow_dvd_pow 2 (g.shift_mono h)

/-- Out of the finest range, a number fills the significand. -/
theorem significand_le (g : Grid) {n : Nat} (h : g.finest < g.shift n) :
    twoPow (g.precision - 1) * g.spacing n ≤ n := by
  have hshift : g.precision - 1 + g.shift n = n.log2 := by
    have := g.precision_pos
    unfold shift at h ⊢
    omega
  have hn : n ≠ 0 := by
    rintro rfl
    have := g.precision_pos
    unfold shift at h
    simp at h
    omega
  calc twoPow (g.precision - 1) * g.spacing n
      = 2 ^ (g.precision - 1 + g.shift n) := (Nat.pow_add ..).symm
    _ = 2 ^ n.log2 := by rw [hshift]
    _ ≤ n := Nat.log2_self_le hn

/-- A number with a full significand is a multiple of its unit. -/
theorem spacing_dvd_of_significand (g : Grid) {m n : Nat} (hm : g.spacing m ∣ m)
    (h : twoPow (g.precision - 1) * g.spacing n ≤ m) : g.spacing n ∣ m := by
  have hpow : 2 ^ (g.precision - 1 + g.shift n) ≤ m := Nat.pow_add 2 .. ▸ h
  have hpos : m ≠ 0 := by
    have := Nat.two_pow_pos (g.precision - 1 + g.shift n)
    omega
  have hlog := (Nat.le_log2 hpos).mpr hpow
  have hshift : g.shift n ≤ g.shift m := by
    have := g.precision_pos
    unfold shift at hlog ⊢
    omega
  exact Nat.dvd_trans (Nat.pow_dvd_pow 2 hshift) hm

/-- Rounding gives a nearest point of the grid. Where another one is as near, the significand of the
one that is given is even. -/
theorem round_nearest (g : Grid) (n : Nat) {d m : Nat} (hd : 0 < d) (hm : g.spacing m ∣ m) :
    distance n d (g.round n d) ≤ distance n d m ∧
      (distance n d (g.round n d) = distance n d m → m ≠ g.round n d →
        nearestEven n (d * g.spacing (n / d)) % 2 = 0) := by
  let u := g.spacing (n / d)
  have hu : 0 < d * u := Nat.mul_pos hd (g.spacing_pos _)
  have hscale (k : Nat) : distance n d (k * u) = distance n (d * u) k := by
    unfold distance
    rw [Nat.mul_right_comm, Nat.mul_assoc]
  have hround : g.round n d = nearestEven n (d * u) * u := rfl
  by_cases hdvd : u ∣ m
  · obtain ⟨k, rfl⟩ := hdvd
    obtain ⟨hnear, htie⟩ := nearestEven_nearest n hu k
    rw [hround, Nat.mul_comm u k, hscale, hscale]
    exact ⟨hnear, fun heq hne => htie heq fun hk => hne (by rw [hk])⟩
  · -- a finer point lies below the power of two where the coarser grid starts, and that is nearer
    have hlow : m < twoPow (g.precision - 1) * u := by
      refine Nat.lt_of_not_le fun h => hdvd (g.spacing_dvd_of_significand hm h)
    have hcoarse : g.finest < g.shift (n / d) := by
      refine Nat.lt_of_not_le fun h => hdvd (Nat.dvd_trans (Nat.pow_dvd_pow 2 ?_) hm)
      exact Nat.le_trans h (Nat.le_max_left ..)
    have hpower : twoPow (g.precision - 1) * u * d ≤ n :=
      Nat.le_trans (Nat.mul_le_mul_right d (g.significand_le hcoarse)) (Nat.div_mul_le_self n d)
    have hless : m * d < twoPow (g.precision - 1) * u * d := Nat.mul_lt_mul_of_pos_right hlow hd
    have hnear := (nearestEven_nearest n hu (twoPow (g.precision - 1))).1
    rw [← hscale, ← hscale, ← hround, distance_of_le hpower] at hnear
    rw [distance_of_le (Nat.le_of_lt (Nat.lt_of_lt_of_le hless hpower))]
    omega

/-- A point of the grid that bounds a ratio from above bounds its rounding. -/
theorem round_le (g : Grid) {n d m : Nat} (hd : 0 < d) (hm : g.spacing m ∣ m) (h : n ≤ m * d) :
    g.round n d ≤ m := by
  refine Nat.le_of_not_lt fun hlt => ?_
  have hmul : m * d < g.round n d * d := Nat.mul_lt_mul_of_pos_right hlt hd
  have hnear := (g.round_nearest n hd hm).1
  rw [distance_of_ge h, distance_of_ge (by omega)] at hnear
  omega

/-- An even count of units is an even significand, also when it has to be normalised. -/
theorem even_significand (g : Grid) {k s : Nat} (hp : 2 ≤ g.precision) (hs : g.finest ≤ s)
    (hk : k ≤ twoPow g.precision) (heven : k % 2 = 0) :
    2 * g.spacing (k * twoPow s) ∣ k * twoPow s := by
  rcases Nat.lt_or_eq_of_le hk with hlt | rfl
  · have hshift : g.shift (k * twoPow s) ≤ s := by
      by_cases h0 : k = 0
      · subst h0
        have := g.precision_pos
        unfold shift
        simp
        omega
      have hmul : k * 2 ^ s < 2 ^ (g.precision + s) := by
        rw [Nat.pow_add]
        exact Nat.mul_lt_mul_of_pos_right hlt (Nat.two_pow_pos s)
      have hne : k * 2 ^ s ≠ 0 := Nat.mul_ne_zero h0 (Nat.ne_of_gt (Nat.two_pow_pos s))
      have hlog : (k * 2 ^ s).log2 < g.precision + s := (Nat.log2_lt hne).mpr hmul
      change max g.finest ((k * 2 ^ s).log2 + 1 - g.precision) ≤ s
      omega
    exact Nat.mul_dvd_mul (Nat.dvd_of_mod_eq_zero heven) (Nat.pow_dvd_pow 2 hshift)
  · have hpow : twoPow g.precision * twoPow s = 2 ^ (g.precision + s) := (Nat.pow_add ..).symm
    have htwo : 2 * g.spacing (2 ^ (g.precision + s)) = 2 ^ (g.shift (2 ^ (g.precision + s)) + 1) :=
      (Nat.pow_succ').symm
    rw [hpow, htwo]
    refine Nat.pow_dvd_pow 2 ?_
    simp only [shift, Nat.log2_two_pow]
    omega

/-- Where two points are equally near, the one that is given has an even significand. -/
theorem round_tie_even (g : Grid) (hp : 2 ≤ g.precision) {n d m : Nat} (hd : 0 < d)
    (hm : g.spacing m ∣ m) (htie : distance n d (g.round n d) = distance n d m)
    (hne : m ≠ g.round n d) : 2 * g.spacing (g.round n d) ∣ g.round n d := by
  have hk : nearestEven n (d * g.spacing (n / d)) ≤ twoPow g.precision := by
    have h := g.div_spacing_lt (n / d)
    rw [Nat.div_div_eq_div_mul] at h
    rcases nearestEven_eq n (d * g.spacing (n / d)) with heq | heq <;> omega
  exact g.even_significand hp (Nat.le_max_left ..) hk ((g.round_nearest n hd hm).2 htie hne)

end Grid

namespace Binary64

def HasEvenSignificand : Binary64 → Prop
  | finite _ n _ => 2 * Grid.double.spacing n ∣ n
  | _ => False

/-- How far a finite double is from a count of quanta. -/
def gap (q : Int) : Binary64 → Nat
  | finite s n _ => (signed s n - q).natAbs
  | _ => 0

/-- No finite double is nearer to the count of quanta, and if another one is as near, this one has an
even significand. -/
structure IsNearest (x : Binary64) (q : Int) : Prop where
  finite : x.isFinite = true
  nearest : ∀ y : Binary64, y.isFinite = true → x.gap q ≤ y.gap q
  even : ∀ y : Binary64, y.isFinite = true → x.gap q = y.gap q → x.same y = false →
    x.HasEvenSignificand

theorem one_pos : 0 < one := by
  obtain ⟨k, -, hone⟩ := one_eq
  rw [hone]
  exact twoPow_pos k

theorem twoPow_lt_twoPow {j k : Nat} (h : j < k) : twoPow j < twoPow k :=
  Nat.pow_lt_pow_right (by decide) h

theorem spacing_twoPow_dvd (k : Nat) : Grid.double.spacing (twoPow k) ∣ twoPow k := by
  have h := Grid.double.spacing_dvd_mul (q := 1) (k := k) (Nat.zero_le _) Nat.one_le_two_pow
  rwa [Nat.one_mul] at h

/-- What is at most a power of two in the range of doubles is rounded to a double. -/
theorem isMagnitude_round {n d k : Nat} (hd : 0 < d) (hk : k < Grid.double.limit)
    (h : n ≤ twoPow k * d) : IsMagnitude (Grid.double.round n d) :=
  ⟨Nat.lt_of_le_of_lt (Grid.double.round_le hd (spacing_twoPow_dvd k) h) (twoPow_lt_twoPow hk),
    Grid.double.spacing_round_dvd n d⟩

theorem gap_finite_false (v m : Nat) (hm : IsMagnitude m) :
    (finite false m hm).gap v = distance v 1 m := by
  rw [gap, signed, distance, Nat.mul_one, if_neg Bool.false_ne_true]

theorem gap_finite_true (v m : Nat) (hm : IsMagnitude m) : (finite true m hm).gap v = m + v := by
  rw [gap, signed, if_pos rfl]
  omega

/-- A negative double is no nearer than zero is. -/
theorem exists_point (v : Nat) {y : Binary64} (hy : y.isFinite = true) :
    ∃ m, Grid.double.spacing m ∣ m ∧ distance v 1 m ≤ y.gap v ∧
      (distance v 1 m = y.gap v → y.place? = some (m : Int)) := by
  cases y with
  | nan => cases hy
  | infinite => cases hy
  | finite s m hm =>
    cases s with
    | false => exact ⟨m, hm.2, Nat.le_of_eq (gap_finite_false v m hm).symm, fun _ => rfl⟩
    | true =>
      have hzero : distance v 1 0 = v := by
        unfold distance
        omega
      refine ⟨0, Nat.dvd_zero _, ?_, fun heq => ?_⟩
      · rw [gap_finite_true, hzero]
        exact Nat.le_add_left v m
      · rw [gap_finite_true, hzero] at heq
        have hm0 : m = 0 := by omega
        subst hm0
        rfl

/-- A count of quanta in the range of doubles becomes the nearest double. -/
theorem ofQuanta_isNearest {v k : Nat} (hk : k < Grid.double.limit) (hv : v ≤ twoPow k) :
    (ofQuanta false v 1).IsNearest v := by
  have hmagnitude := isMagnitude_round Nat.one_pos hk (n := v) (by rwa [Nat.mul_one])
  rw [ofQuanta_eq_finite false rfl hmagnitude]
  have hself := gap_finite_false v _ hmagnitude
  refine ⟨rfl, fun y hy => ?_, fun y hy heq hne => ?_⟩
  · obtain ⟨m, hm, hle, -⟩ := exists_point v hy
    rw [hself]
    exact Nat.le_trans (Grid.double.round_nearest v Nat.one_pos hm).1 hle
  · rw [HasEvenSignificand]
    obtain ⟨m, hm, hle, hplace⟩ := exists_point v hy
    have hround := (Grid.double.round_nearest v Nat.one_pos hm).1
    have htie : distance v 1 m = y.gap v := by omega
    have hother : m ≠ Grid.double.round v 1 := by
      intro hm
      rw [same, related, hplace htie, place?, signed, if_neg Bool.false_ne_true, hm] at hne
      simp at hne
    exact Grid.double.round_tie_even (by decide) Nat.one_pos hm (by omega) hother

/-- A whole number in the range of doubles becomes the nearest double. -/
theorem ofNat_isNearest {n j : Nat} (hj : j ≤ 1023) (h : n ≤ twoPow j) :
    (ofNat n).IsNearest (n * one : Nat) := by
  obtain ⟨k, hk, hone⟩ := one_eq
  have hbound : n * one ≤ twoPow (j + k) := by
    rw [hone]
    calc n * 2 ^ k ≤ 2 ^ j * 2 ^ k := Nat.mul_le_mul_right _ h
      _ = 2 ^ (j + k) := (Nat.pow_add ..).symm
  have hk : j + k < Grid.double.limit := by
    change j + k < 2098
    omega
  have hof : ofNat n = ofQuanta false (n * one) 1 := rfl
  rw [hof]
  exact ofQuanta_isNearest hk hbound

end Binary64

end SmallScheme
