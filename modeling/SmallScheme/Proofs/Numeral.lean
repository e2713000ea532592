import SmallScheme.Proofs.Spelling

/-! The text of a number is a numeral that stands for the same number. -/
namespace SmallScheme

namespace Numeral

theorem value_eq_ofDigitChars {cs : List Char} (h : AllDigits cs) :
    value 10 cs = Nat.ofDigitChars 10 cs 0 := by
  have hfold (n : Nat) : cs.foldl (fun n c => n * 10 + digitValue c) n = Nat.ofDigitChars 10 cs n := by
    induction cs generalizing n with
    | nil => rfl
    | cons c cs ih =>
      obtain ⟨hc, hcs⟩ := List.forall_mem_cons.mp h
      rw [List.foldl_cons, ih hcs, Nat.ofDigitChars_cons, digitValue, if_pos hc, Nat.mul_comm]
  exact hfold 0

theorem sign_written (negative : Bool) {cs : List Char} (h : ∀ c ∈ cs.head?, c.isDigit = true) :
    sign (if negative then '-' :: cs else cs) = (negative, cs) := by
  cases negative with
  | true => rfl
  | false =>
    rw [if_neg Bool.false_ne_true]
    unfold sign
    split
    · exact absurd (h _ rfl) (by decide)
    · exact absurd (h _ rfl) (by decide)
    · rfl

/-- Digits before an optional point and digits after it. -/
def written (whole part : List Char) : List Char :=
  if part.isEmpty then whole else whole ++ '.' :: part

theorem written_ne_nil {whole part : List Char} (h : whole ≠ []) : written whole part ≠ [] := by
  unfold written
  split
  · exact h
  · simp

theorem decimal?_written (negative : Bool) {whole part : List Char} (hw : AllDigits whole)
    (hp : AllDigits part) (hne : whole ≠ []) :
    decimal? (if negative then '-' :: written whole part else written whole part) =
      some (Decimal.toBinary64 negative ⟨value 10 (whole ++ part), -(part.length : Int)⟩) := by
  have hhead : ∀ c ∈ (written whole part).head?, c.isDigit = true := by
    obtain ⟨c, cs, rfl⟩ := List.exists_cons_of_ne_nil hne
    intro d hd
    have hcd : c = d := by
      unfold written at hd
      split at hd <;> simpa using hd
    exact hcd ▸ hw c List.mem_cons_self
  have hwhole : digits (written whole part) = (whole, if part.isEmpty then [] else '.' :: part) := by
    unfold written
    split
    · rw [← List.append_nil whole, digits_append hw (by simp), List.append_nil]
    · exact digits_append hw (by simp)
  have hpart : fraction (if part.isEmpty then [] else '.' :: part) = (part, []) := by
    split
    · next he =>
      rw [List.isEmpty_iff.mp he]
      rfl
    · change digits part = (part, [])
      rw [← List.append_nil part, digits_append hp (by simp), List.append_nil]
  -- sign, whole part and fraction in turn; nothing is left for an exponent
  unfold decimal?
  rw [sign_written negative hhead]
  dsimp only
  rw [hwhole]
  dsimp only
  rw [hpart]
  dsimp only
  rw [List.isEmpty_eq_false_iff.mpr hne, Bool.false_and, if_neg Bool.false_ne_true]
  simp only [exponent?, Option.map_some, Int.zero_sub]

end Numeral

namespace Decimal
open Numeral

/-- Digits without their trailing zeros, and the zeros. -/
theorem exists_trailing_zeros (cs : List Char) :
    ∃ z, cs = (cs.reverse.dropWhile (· = '0')).reverse ++ List.replicate z '0' := by
  have hzeros : cs.reverse.takeWhile (· = '0') =
      List.replicate (cs.reverse.takeWhile (· = '0')).length '0' := by
    refine List.eq_replicate_of_mem fun c hc => ?_
    exact of_decide_eq_true (List.all_eq_true.mp List.all_takeWhile c hc)
  refine ⟨(cs.reverse.takeWhile (· = '0')).length, ?_⟩
  calc cs = (cs.reverse.takeWhile (· = '0') ++ cs.reverse.dropWhile (· = '0')).reverse := by
        rw [List.takeWhile_append_dropWhile, List.reverse_reverse]
    _ = (cs.reverse.dropWhile (· = '0')).reverse ++ (cs.reverse.takeWhile (· = '0')).reverse :=
        List.reverse_append
    _ = _ := by
        conv => lhs; arg 2; rw [hzeros, List.reverse_replicate]

theorem allDigits_replicate (k : Nat) : AllDigits (List.replicate k '0') := by
  intro c hc
  rw [(List.mem_replicate.mp hc).2]
  rfl

theorem allDigits_toDigits (n : Nat) : AllDigits (Nat.toDigits 10 n) :=
  fun _ hc => Nat.isDigit_of_mem_toDigits (by decide) (by decide) hc

theorem allDigits_append {xs ys : List Char} (hx : AllDigits xs) (hy : AllDigits ys) :
    AllDigits (xs ++ ys) :=
  List.forall_mem_append.mpr ⟨hx, hy⟩

/-- Digits that are cut at `places` before their end, with the zeros after the cut left out. -/
theorem exists_cut_digits {ds : List Char} {places : Nat} (h : places < ds.length) :
    ∃ whole part z, ds.take (ds.length - places) = whole ∧
      ((ds.drop (ds.length - places)).reverse.dropWhile (· = '0')).reverse = part ∧
      ds = whole ++ part ++ List.replicate z '0' ∧ part.length + z = places ∧ whole ≠ [] := by
  obtain ⟨z, hz⟩ := exists_trailing_zeros (ds.drop (ds.length - places))
  refine ⟨_, _, z, rfl, rfl, ?_, ?_, ?_⟩
  · rw [List.append_assoc, ← hz, List.take_append_drop]
  · have hlen := congrArg List.length hz
    rw [List.length_drop, List.length_append, List.length_replicate] at hlen
    omega
  · intro hnil
    have hlen := congrArg List.length hnil
    rw [List.length_take, List.length_nil] at hlen
    omega

theorem mul_ten_pow_add (n k z : Nat) :
    n * Nat.pow 10 (k + z) = Nat.pow 10 z * n * Nat.pow 10 k := by
  calc n * 10 ^ (k + z) = n * (10 ^ k * 10 ^ z) := by rw [Nat.pow_add]
    _ = 10 ^ z * n * 10 ^ k := by ac_rfl

/-- Positional notation is digits around an optional point, and they have the value of the
decimal. -/
structure Spells (d : Decimal) (whole part : List Char) : Prop where
  text : d.positional = written whole part
  nonempty : whole ≠ []
  whole_digits : AllDigits whole
  part_digits : AllDigits part
  value_eq : value 10 (whole ++ part) * d.ratio.2 = d.ratio.1 * Nat.pow 10 part.length

theorem exists_spells_of_nonneg {d : Decimal} (he : 0 ≤ d.exponent) :
    ∃ whole part, d.Spells whole part := by
  have hdigits := allDigits_append (allDigits_toDigits d.digits)
    (allDigits_replicate d.exponent.toNat)
  refine ⟨_, [], ?_, ?_, hdigits, ?_, ?_⟩
  · rw [positional, if_pos he]
    rfl
  · simp [Nat.toDigits_ne_nil]
  · exact fun c hc => absurd hc List.not_mem_nil
  · rw [List.append_nil, value_eq_ofDigitChars hdigits, Nat.ofDigitChars_append,
      Nat.ofDigitChars_ten_toDigits, Nat.ofDigitChars_replicate_zero, ratio, if_pos he]
    change 10 ^ d.exponent.toNat * d.digits * 1 = d.digits * 10 ^ d.exponent.toNat * 1
    rw [Nat.mul_comm d.digits]

theorem exists_spells_of_neg {d : Decimal} (he : ¬ 0 ≤ d.exponent) :
    ∃ whole part, d.Spells whole part := by
  obtain ⟨places, hplaces⟩ : ∃ k : Nat, d.exponent = -(k : Int) := ⟨(-d.exponent).toNat, by omega⟩
  have hratio : d.ratio = (d.digits, Nat.pow 10 places) := by
    rw [← ratio_neg, ← hplaces]
  have htoNat : (-d.exponent).toNat = places := by omega
  -- zeros in front do not change the value and leave at least one digit before the point
  obtain ⟨padded, hpadded⟩ : ∃ ds, List.replicate (places + 1 - (Nat.toDigits 10 d.digits).length) '0' ++
      Nat.toDigits 10 d.digits = ds := ⟨_, rfl⟩
  have hdigits : AllDigits padded := by
    rw [← hpadded]
    exact allDigits_append (allDigits_replicate _) (allDigits_toDigits _)
  have hlen : places < padded.length := by
    rw [← hpadded, List.length_append, List.length_replicate]
    omega
  have hvalue : Nat.ofDigitChars 10 padded 0 = d.digits := by
    rw [← hpadded, Nat.ofDigitChars_append, Nat.ofDigitChars_replicate_zero, Nat.mul_zero,
      Nat.ofDigitChars_ten_toDigits]
  obtain ⟨whole, part, z, hwhole, hpart, hcut, hz, hne⟩ := exists_cut_digits hlen
  have hparts := (List.forall_mem_append.mp (hcut ▸ hdigits)).1
  refine ⟨whole, part, ?_, hne, (List.forall_mem_append.mp hparts).1,
    (List.forall_mem_append.mp hparts).2, ?_⟩
  · rw [positional, if_neg he]
    dsimp only
    rw [htoNat, hpadded, hwhole, hpart]
    rfl
  · -- the zeros that are left out are the difference between the places
    rw [hcut, Nat.ofDigitChars_append, Nat.ofDigitChars_replicate_zero] at hvalue
    rw [hratio, value_eq_ofDigitChars hparts]
    dsimp only
    rw [← hvalue, ← hz]
    exact mul_ten_pow_add _ part.length z

theorem exists_spells (d : Decimal) : ∃ whole part, d.Spells whole part := by
  by_cases he : 0 ≤ d.exponent
  · exact exists_spells_of_nonneg he
  · exact exists_spells_of_neg he

end Decimal

namespace Numeral

/-- The characters of the texts of finite numbers. -/
def isNumeric (c : Char) : Bool := c.isDigit || c = '.' || c = '-'

theorem radix?_eq_none {c : Char} (h : isNumeric c = true) : radix? c = none := by
  have hne (d : Char) (hd : isNumeric d = false) : c ≠ d := by
    rintro rfl
    rw [h] at hd
    cases hd
  unfold radix?
  simp [hne 'x' rfl, hne 'X' rfl, hne 'o' rfl, hne 'O' rfl, hne 'b' rfl, hne 'B' rfl]

/-- Text of numeric characters stands for a number only as a decimal. -/
theorem read?_eq_decimal? {cs : List Char} (h : ∀ c ∈ cs, isNumeric c = true) :
    read? (String.ofList cs) = decimal? cs := by
  -- all three words for the infinities have a capital letter
  have hword (w : String) (hw : 'I' ∈ w.toList) : String.ofList cs ≠ w := by
    rintro rfl
    rw [String.toList_ofList] at hw
    exact absurd (h 'I' hw) (by decide)
  have hwords : (String.ofList cs = "Infinity" || String.ofList cs = "+Infinity") = false := by
    simp [hword "Infinity" (by decide), hword "+Infinity" (by decide)]
  unfold read?
  rw [hwords, if_neg Bool.false_ne_true, if_neg (hword "-Infinity" (by decide)), String.toList_ofList]
  refine ofDigits?_eq_decimal? fun c rest hcs => radix?_eq_none (h c ?_)
  rw [hcs]
  exact List.mem_cons_of_mem _ List.mem_cons_self

theorem integer?_ne_nan (radix : Nat) (cs : List Char) : integer? radix cs ≠ some .nan := by
  unfold integer?
  split
  · nofun
  · intro h
    obtain ⟨n, _, hn⟩ := Option.map_eq_some_iff.mp h
    unfold Binary64.ofNat Binary64.ofRatio at hn
    exact Binary64.ofQuanta_ne_nan _ _ _ hn

/-- No word stands for not-a-number. -/
theorem read?_ne_nan (word : String) : read? word ≠ some .nan := by
  unfold read?
  split
  · nofun
  split
  · nofun
  unfold ofDigits?
  split
  · split
    · exact integer?_ne_nan _ _
    · exact plain?_eq_decimal? _ ▸ decimal?_ne_nan _
  · exact plain?_eq_decimal? _ ▸ decimal?_ne_nan _

/-- The text of a finite number that is not zero. -/
theorem text_finite (negative : Bool) {n : Nat} (hm : IsMagnitude n) (hn : n ≠ 0) :
    ∃ whole part, (Binary64.finite negative n hm).text =
        String.ofList (if negative then '-' :: written whole part else written whole part) ∧
      whole ≠ [] ∧ AllDigits whole ∧ AllDigits part ∧
      Decimal.toBinary64 negative ⟨value 10 (whole ++ part), -(part.length : Int)⟩ =
        .finite negative n hm := by
  obtain ⟨_, hrounded⟩ := Decimal.rounded_shortest hn hm
  obtain ⟨whole, part, h⟩ := Decimal.exists_spells (Decimal.shortest n)
  refine ⟨whole, part, ?_, h.nonempty, h.whole_digits, h.part_digits, ?_⟩
  · rw [Binary64.text, if_neg hn, h.text]
  · rw [Decimal.toBinary64_eq negative (by dsimp only; omega)]
    refine Binary64.ofQuanta_eq_finite negative ?_ hm
    refine (Decimal.rounded_eq_of_cross ?_).trans hrounded
    rw [Decimal.ratio_neg]
    exact h.value_eq

theorem isNumeric_written {negative : Bool} {whole part : List Char} (hw : AllDigits whole)
    (hp : AllDigits part) :
    ∀ c ∈ if negative then '-' :: written whole part else written whole part,
      isNumeric c = true := by
  have hdigit {cs : List Char} (h : AllDigits cs) : ∀ c ∈ cs, isNumeric c = true := by
    intro c hc
    rw [isNumeric, h c hc]
    rfl
  have hwritten : ∀ c ∈ written whole part, isNumeric c = true := by
    unfold written
    split
    · exact hdigit hw
    · exact List.forall_mem_append.mpr ⟨hdigit hw, List.forall_mem_cons.mpr ⟨rfl, hdigit hp⟩⟩
  split
  · exact List.forall_mem_cons.mpr ⟨rfl, hwritten⟩
  · exact hwritten

theorem read?_text_finite {negative : Bool} {n : Nat} (hm : IsMagnitude n) (hn : n ≠ 0) :
    read? (Binary64.finite negative n hm).text = some (.finite negative n hm) := by
  obtain ⟨whole, part, htext, hne, hw, hp, hvalue⟩ := text_finite negative hm hn
  rw [htext, read?_eq_decimal? (isNumeric_written hw hp), decimal?_written negative hw hp hne, hvalue]

theorem read?_zero (negative : Bool) :
    read? (String.ofList (if negative then ['-', '0'] else ['0'])) = some (.zero negative) := by
  have hzero : AllDigits ['0'] := List.forall_mem_singleton.mpr rfl
  have hpart : AllDigits [] := fun c hc => absurd hc List.not_mem_nil
  have h := decimal?_written negative hzero hpart (List.cons_ne_nil _ _)
  have hdigits : value 10 (['0'] ++ []) = 0 := rfl
  rw [Decimal.toBinary64, if_pos hdigits] at h
  rw [← h]
  exact read?_eq_decimal? (isNumeric_written hzero hpart)

end Numeral

theorem Binary64.same_of_place_eq {x y : Binary64} {a : Int} (hx : x.place? = some a)
    (hy : y.place? = some a) : x.same y = true := by
  unfold same related
  rw [hx, hy]
  exact beq_self_eq_true a

/-- The text of a number stands for the same number. -/
theorem Numeral.read?_text {x : Binary64} (hx : x ≠ .nan) :
    ∃ y, read? x.text = some y ∧ x.same y = true := by
  cases x with
  | nan => exact absurd rfl hx
  | infinite negative =>
    refine ⟨.infinite negative, ?_, Binary64.same_of_place_eq rfl rfl⟩
    cases negative <;> rfl
  | finite negative n hm =>
    by_cases hn : n = 0
    · -- a negative zero is read as a positive one
      subst hn
      refine ⟨_, read?_zero false, Binary64.same_of_place_eq (a := 0) ?_ ?_⟩
      · cases negative <;> rfl
      · rw [Binary64.zero, Binary64.ofQuanta_eq_finite false (Grid.round_small _ (by decide)) hm]
        rfl
    · exact ⟨_, read?_text_finite hm hn, Binary64.same_of_place_eq rfl rfl⟩

end SmallScheme
