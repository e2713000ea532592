import SmallScheme.Datum
import SmallScheme.Proofs.Numeral
import SmallScheme.Proofs.Rounding
import Mathlib.Data.Nat.Digits.Defs

/-! What a word is: a boolean, a number or a symbol.

Without a radix, the numbers are the decimals and the words for the infinities. After the mark of a
radix they are the digits of that radix, as long as their value fits 64 bits. Every other word is the
symbol of its own name, and no word is not-a-number. -/
namespace SmallScheme

namespace Numeral

def infinityWords : List String := ["Infinity", "+Infinity", "-Infinity"]

/-- The word starts with a zero and the mark of a radix. -/
def AnnouncesRadix (w : String) : Prop :=
  ∃ p ∈ ["0x", "0X", "0o", "0O", "0b", "0B"], p.toList <+: w.toList

theorem radix?_eq_none_of_not_announces {w : String} (h : ¬ AnnouncesRadix w) {c : Char}
    {cs : List Char} (hw : w.toList = '0' :: c :: cs) : radix? c = none := by
  have hne (p : String) (hp : p ∈ ["0x", "0X", "0o", "0O", "0b", "0B"]) (d : Char)
      (hd : p.toList = ['0', d]) : c ≠ d := by
    rintro rfl
    exact h ⟨p, hp, cs, by rw [hd, hw]; rfl⟩
  unfold radix?
  simp [hne "0x" (by simp) 'x' rfl, hne "0X" (by simp) 'X' rfl, hne "0o" (by simp) 'o' rfl,
    hne "0O" (by simp) 'O' rfl, hne "0b" (by simp) 'b' rfl, hne "0B" (by simp) 'B' rfl]

theorem read?_of_not_mem {w : String} (h : w ∉ infinityWords) : read? w = ofDigits? w.toList := by
  simp only [infinityWords, List.mem_cons, List.not_mem_nil, or_false, not_or] at h
  simp [read?, h]

/-- Without a radix, the numerals are the words for the infinities and the decimals. -/
theorem read?_isSome_iff {w : String} (h : ¬ AnnouncesRadix w) :
    (read? w).isSome = true ↔ w ∈ infinityWords ∨ IsDecimal w.toList := by
  have hdecimal : ofDigits? w.toList = decimal? w.toList :=
    ofDigits?_eq_decimal? fun _ _ hw => radix?_eq_none_of_not_announces h hw
  by_cases hmem : w ∈ infinityWords
  · refine iff_of_true ?_ (Or.inl hmem)
    simp only [infinityWords, List.mem_cons, List.not_mem_nil, or_false] at hmem
    rcases hmem with rfl | rfl | rfl <;> rfl
  · rw [or_iff_right hmem, read?_of_not_mem hmem, hdecimal]
    exact decimal?_isSome_iff _

end Numeral

namespace Datum
open Numeral

def boolWords : List String := ["#t", "#true", "#f", "#false"]

theorem ofWord_of_mem {w : String} (h : w ∈ boolWords) : ∃ b, ofWord w = bool b := by
  simp only [boolWords, List.mem_cons, List.not_mem_nil, or_false] at h
  rcases h with rfl | rfl | rfl | rfl
  · exact ⟨true, rfl⟩
  · exact ⟨true, rfl⟩
  · exact ⟨false, rfl⟩
  · exact ⟨false, rfl⟩

theorem read?_of_mem {w : String} (h : w ∈ boolWords) : read? w = none := by
  simp only [boolWords, List.mem_cons, List.not_mem_nil, or_false] at h
  rcases h with rfl | rfl | rfl | rfl <;> rfl

theorem ofWord_of_not_mem {w : String} (h : w ∉ boolWords) :
    ofWord w = (read? w).elim (symbol w) number := by
  simp only [boolWords, List.mem_cons, List.not_mem_nil, or_false, not_or] at h
  cases hx : read? w <;> simp [ofWord, h, hx]

theorem ofWord_eq_number_iff {w : String} {x : Binary64} :
    ofWord w = number x ↔ read? w = some x := by
  by_cases hmem : w ∈ boolWords
  · obtain ⟨b, hb⟩ := ofWord_of_mem hmem
    simp [hb, read?_of_mem hmem]
  · rw [ofWord_of_not_mem hmem]
    cases read? w <;> simp

theorem exists_bool_iff {w : String} : (∃ b, ofWord w = bool b) ↔ w ∈ boolWords := by
  refine ⟨fun ⟨b, hb⟩ => ?_, ofWord_of_mem⟩
  by_contra hmem
  rw [ofWord_of_not_mem hmem] at hb
  cases hx : read? w <;> simp [hx] at hb

/-- A word that is neither one of the booleans nor a numeral is a symbol. -/
theorem ofWord_eq_symbol_iff {w : String} :
    ofWord w = symbol w ↔ w ∉ boolWords ∧ read? w = none := by
  by_cases hmem : w ∈ boolWords
  · obtain ⟨b, hb⟩ := ofWord_of_mem hmem
    simp [hb, hmem]
  · rw [ofWord_of_not_mem hmem]
    cases read? w <;> simp [hmem]

/-- Which words without a radix are what. A boolean is one of four words. A number is one of the three
words for the infinities or a decimal: an optional sign, digits with an optional point among or around
them, and an optional exponent. Every other word is the symbol of the word as it stands, and no word is
not-a-number. -/
theorem words_classified (w : String) (h : ¬ AnnouncesRadix w) :
    ((∃ b, ofWord w = bool b) ↔ w ∈ ["#t", "#true", "#f", "#false"]) ∧
      ((∃ x, ofWord w = number x) ↔
        w ∈ ["Infinity", "+Infinity", "-Infinity"] ∨ IsDecimal w.toList) ∧
      (ofWord w = symbol w ↔ w ∉ ["#t", "#true", "#f", "#false"] ∧
        ¬ (w ∈ ["Infinity", "+Infinity", "-Infinity"] ∨ IsDecimal w.toList)) ∧
      ofWord w ≠ number .nan := by
  have hnumeral : (∃ x, ofWord w = number x) ↔ w ∈ infinityWords ∨ IsDecimal w.toList := by
    rw [← read?_isSome_iff h, Option.isSome_iff_exists]
    exact exists_congr fun x => ofWord_eq_number_iff
  refine ⟨exists_bool_iff, hnumeral, ?_, fun hnan => ?_⟩
  · rw [ofWord_eq_symbol_iff, ← Option.not_isSome_iff_eq_none, read?_isSome_iff h]
    rfl
  · exact read?_ne_nan w (ofWord_eq_number_iff.mp hnan)

/-- A decimal with every part, whose point has no digits after it, and a word for not-a-number. -/
theorem words_classified_decimal :
    ¬ AnnouncesRadix "+01.e-3" ∧ (∃ x, ofWord "+01.e-3" = number x) ∧
      ¬ AnnouncesRadix "nan" ∧ ofWord "nan" = symbol "nan" := by
  have hmantissa : IsMantissa (['0', '1'] ++ '.' :: []) :=
    .pointed ⟨by simp, List.all_eq_true.mp rfl⟩ (List.all_eq_true.mp rfl)
  have hexponent : IsExponent ('e' :: (['-'] ++ ['3'])) :=
    .marked (Or.inl rfl) (Or.inr (Or.inr rfl)) ⟨by simp, List.all_eq_true.mp rfl⟩
  have hdecimal : IsDecimal "+01.e-3".toList :=
    ⟨['+'], _, _, Or.inr (Or.inl rfl), hmantissa, hexponent, rfl⟩
  have hplain : ¬ AnnouncesRadix "+01.e-3" := by
    unfold AnnouncesRadix
    decide
  have hnan : ¬ AnnouncesRadix "nan" := by
    unfold AnnouncesRadix
    decide
  have hnone : ¬ IsDecimal "nan".toList := by
    rw [← decimal?_isSome_iff]
    decide
  refine ⟨hplain, ?_, hnan, ?_⟩
  · exact (words_classified "+01.e-3" hplain).2.1.mpr (Or.inr hdecimal)
  · exact (words_classified "nan" hnan).2.2.1.mpr ⟨by decide, not_or.mpr ⟨by decide, hnone⟩⟩

end Datum

namespace Numeral

/-- The character writes the digit, in either case. -/
def Writes (d : Nat) (c : Char) : Prop := c = Nat.digitChar d ∨ c = (Nat.digitChar d).toUpper

instance (d : Nat) (c : Char) : Decidable (Writes d c) := inferInstanceAs (Decidable (_ ∨ _))

/-- The characters write the digits, which are digits of the radix. -/
def Spells (radix : Nat) : List Nat → List Char → Prop :=
  List.Forall₂ fun d c => d < radix ∧ Writes d c

instance (radix : Nat) (ds : List Nat) (cs : List Char) : Decidable (Spells radix ds cs) :=
  inferInstanceAs (Decidable (List.Forall₂ _ ds cs))

/-- Sixteen digits, each in two cases. -/
theorem digit_of_writes {d : Nat} {c : Char} (hd : d < 16) (h : Writes d c) :
    (c.isDigit || c.isAlpha) = true ∧ digitValue c = d := by
  have hall : ∀ d < 16, ((Nat.digitChar d).isDigit || (Nat.digitChar d).isAlpha) = true ∧
      digitValue (Nat.digitChar d) = d ∧
      ((Nat.digitChar d).toUpper.isDigit || (Nat.digitChar d).toUpper.isAlpha) = true ∧
      digitValue (Nat.digitChar d).toUpper = d := by
    decide
  obtain ⟨hclass, hvalue, hupperClass, hupper⟩ := hall d hd
  rcases h with rfl | rfl
  · exact ⟨hclass, hvalue⟩
  · exact ⟨hupperClass, hupper⟩

theorem isDigitOf_of_writes {radix d : Nat} {c : Char} (hradix : radix ≤ 16) (hd : d < radix)
    (h : Writes d c) : isDigitOf radix c = true := by
  obtain ⟨hclass, hvalue⟩ := digit_of_writes (Nat.lt_of_lt_of_le hd hradix) h
  rw [isDigitOf, hclass, hvalue, decide_eq_true hd]
  rfl

/-- Only the characters that write a digit of the radix are digits of it. -/
theorem writes_of_isDigitOf {radix : Nat} {c : Char} (hradix : radix ≤ 16)
    (h : isDigitOf radix c = true) : ∃ d < radix, Writes d c := by
  have hall : ∀ n < 128, ((Char.ofNat n).isDigit || (Char.ofNat n).isAlpha) = true →
      digitValue (Char.ofNat n) < 16 →
      Char.ofNat n = Nat.digitChar (digitValue (Char.ofNat n)) ∨
        Char.ofNat n = (Nat.digitChar (digitValue (Char.ofNat n))).toUpper := by
    decide
  obtain ⟨hclass, hvalue⟩ := Bool.and_eq_true_iff.mp h
  have hascii : c.toNat < 128 := by
    rcases Bool.or_eq_true_iff.mp hclass with hdigit | halpha
    · exact Nat.lt_of_le_of_lt (Char.isDigit_iff_toNat.mp hdigit).2 (by decide)
    · have := isAlpha_iff_toNat.mp halpha
      omega
  have hlt := of_decide_eq_true hvalue
  have hc := hall c.toNat hascii
  rw [Char.ofNat_toNat] at hc
  exact ⟨digitValue c, hlt, hc hclass (Nat.lt_of_lt_of_le hlt hradix)⟩

theorem isDigitOf_iff {radix : Nat} {c : Char} (hradix : radix ≤ 16) :
    isDigitOf radix c = true ↔ ∃ d < radix, Writes d c :=
  ⟨writes_of_isDigitOf hradix, fun ⟨_, hd, h⟩ => isDigitOf_of_writes hradix hd h⟩

theorem Spells.digits {radix : Nat} {ds : List Nat} {cs : List Char} (hradix : radix ≤ 16)
    (h : Spells radix ds cs) : ∀ c ∈ cs, isDigitOf radix c = true := by
  induction h with
  | nil => exact fun c hc => absurd hc List.not_mem_nil
  | cons hd _ ih => exact List.forall_mem_cons.mpr ⟨isDigitOf_of_writes hradix hd.1 hd.2, ih⟩

/-- The value of digits that are written is the number that they are the digits of. -/
theorem Spells.value_eq {radix : Nat} {ds : List Nat} {cs : List Char} (hradix : radix ≤ 16)
    (h : Spells radix ds cs) : value radix cs = Nat.ofDigits radix ds.reverse := by
  have hfold (a : Nat) : cs.foldl (fun n c => n * radix + digitValue c) a =
      ds.foldl (fun n d => d + radix * n) a := by
    induction h generalizing a with
    | nil => rfl
    | cons hd _ ih =>
      rw [List.foldl_cons, List.foldl_cons, ih,
        (digit_of_writes (Nat.lt_of_lt_of_le hd.1 hradix) hd.2).2, Nat.add_comm, Nat.mul_comm]
  rw [value, hfold, Nat.ofDigits_eq_foldr, List.foldr_reverse]
  rfl

/-- A sign is no digit, so it does not matter that one may come before the digits elsewhere. -/
theorem integer?_eq (radix : Nat) (cs : List Char) :
    integer? radix cs =
      if cs ≠ [] ∧ cs.all (isDigitOf radix) = true ∧ value radix cs < twoPow 64 then
        some (.ofNat (value radix cs))
      else none := by
  by_cases hsign : cs.head? = some '+' ∨ cs.head? = some '-'
  · have hno : ¬ cs.all (isDigitOf radix) = true := by
      intro hall
      rcases hsign with hhead | hhead
      · cases List.all_eq_true.mp hall '+' (List.mem_of_mem_head? hhead)
      · cases List.all_eq_true.mp hall '-' (List.mem_of_mem_head? hhead)
    rw [if_neg fun h => hno h.2.1, integer?]
    exact if_pos (by simpa using hsign)
  · rw [integer?, if_neg (by simpa using hsign), unsigned?, if_neg (not_or.mp hsign).1]
    by_cases hempty : cs = []
    · simp [hempty]
    cases hall : cs.all (isDigitOf radix) with
    | false => simp
    | true => by_cases hlt : value radix cs < twoPow 64 <;> simp [hempty, hlt]

/-- None of the words that are looked up as a whole starts with the mark of a radix. -/
theorem prefixed_not_mem (mark : Char) (cs : List Char) :
    String.ofList ('0' :: mark :: cs) ∉ Datum.boolWords ++ infinityWords := by
  have hword : ∀ v ∈ Datum.boolWords ++ infinityWords, v.toList.head? ≠ some '0' := by decide
  intro h
  refine hword _ h ?_
  rw [String.toList_ofList]
  rfl

theorem read?_prefixed {mark : Char} {radix : Nat} (hmark : radix? mark = some radix)
    (cs : List Char) : read? (String.ofList ('0' :: mark :: cs)) = integer? radix cs := by
  have hword := prefixed_not_mem mark cs
  rw [read?_of_not_mem fun h => hword (List.mem_append_right _ h), String.toList_ofList]
  exact ofDigits?_radix hmark cs

theorem ofWord_prefixed_eq_symbol {mark : Char} {radix : Nat} (hmark : radix? mark = some radix)
    {cs : List Char} (h : integer? radix cs = none) :
    Datum.ofWord (String.ofList ('0' :: mark :: cs)) =
      .symbol (String.ofList ('0' :: mark :: cs)) := by
  have hword := prefixed_not_mem mark cs
  rw [Datum.ofWord_eq_symbol_iff, read?_prefixed hmark]
  exact ⟨fun hbool => hword (List.mem_append_left _ hbool), h⟩

/-- After the mark of a radix, digits of the radix whose value fits 64 bits are the nearest number to
that value; what does not fit and what is no string of digits is a symbol. -/
theorem prefixed_words_read {mark : Char} {radix : Nat}
    (hmark : (mark, radix) ∈ [('x', 16), ('X', 16), ('o', 8), ('O', 8), ('b', 2), ('B', 2)])
    (cs : List Char) :
    (∀ ds, Spells radix ds cs → cs ≠ [] →
      (Nat.ofDigits radix ds.reverse < 2 ^ 64 →
        ∃ x, Datum.ofWord (String.ofList ('0' :: mark :: cs)) = .number x ∧
          x.IsNearest (Nat.ofDigits radix ds.reverse * Binary64.one : Nat)) ∧
      (2 ^ 64 ≤ Nat.ofDigits radix ds.reverse →
        Datum.ofWord (String.ofList ('0' :: mark :: cs)) =
          .symbol (String.ofList ('0' :: mark :: cs)))) ∧
    (cs = [] ∨ (∃ c ∈ cs, ∀ d < radix, ¬ Writes d c) →
      Datum.ofWord (String.ofList ('0' :: mark :: cs)) =
        .symbol (String.ofList ('0' :: mark :: cs))) := by
  have hradix : radix ≤ 16 ∧ radix? mark = some radix := by
    simp only [List.mem_cons, Prod.mk.injEq, List.not_mem_nil, or_false] at hmark
    rcases hmark with ⟨rfl, rfl⟩ | ⟨rfl, rfl⟩ | ⟨rfl, rfl⟩ | ⟨rfl, rfl⟩ | ⟨rfl, rfl⟩ | ⟨rfl, rfl⟩
    all_goals exact ⟨by decide, rfl⟩
  obtain ⟨hle, hmark⟩ := hradix
  refine ⟨fun ds hds hne => ?_, fun hother => ofWord_prefixed_eq_symbol hmark ?_⟩
  · have hdigits : cs.all (isDigitOf radix) = true := List.all_eq_true.mpr (hds.digits hle)
    rw [← hds.value_eq hle]
    refine ⟨fun hlt => ⟨.ofNat (value radix cs), ?_, ?_⟩,
      fun hwide => ofWord_prefixed_eq_symbol hmark ?_⟩
    · rw [Datum.ofWord_eq_number_iff, read?_prefixed hmark, integer?_eq]
      exact if_pos ⟨hne, hdigits, hlt⟩
    · exact Binary64.ofNat_isNearest (by decide : 64 ≤ 1023) (Nat.le_of_lt hlt)
    · rw [integer?_eq]
      exact if_neg fun h => absurd h.2.2 (Nat.not_lt.mpr hwide)
  · rw [integer?_eq]
    refine if_neg fun h => ?_
    rcases hother with hnil | ⟨c, hc, hdigit⟩
    · exact h.1 hnil
    · obtain ⟨d, hd, hwrites⟩ := (isDigitOf_iff hle).mp (List.all_eq_true.mp h.2.1 c hc)
      exact hdigit d hd hwrites

/-- Digits in both cases, a value between two doubles, and a digit that is too great for its radix. -/
theorem prefixed_words_read_mixed :
    ('X', 16) ∈ [('x', 16), ('X', 16), ('o', 8), ('O', 8), ('b', 2), ('B', 2)] ∧
      Spells 16 [10, 11, 0, 0, 0, 0, 0, 0, 0, 0, 0, 0, 0, 1] "aB000000000001".toList ∧
      (∃ x, Datum.ofWord "0XaB000000000001" = .number x ∧
        x.IsNearest (48132221017522177 * Binary64.one : Nat)) ∧
      ('o', 8) ∈ [('x', 16), ('X', 16), ('o', 8), ('O', 8), ('b', 2), ('B', 2)] ∧
      Datum.ofWord "0o78" = .symbol "0o78" := by
  have hhex : ('X', 16) ∈ [('x', 16), ('X', 16), ('o', 8), ('O', 8), ('b', 2), ('B', 2)] := by decide
  have hoctal : ('o', 8) ∈ [('x', 16), ('X', 16), ('o', 8), ('O', 8), ('b', 2), ('B', 2)] := by decide
  have hspells : Spells 16 [10, 11, 0, 0, 0, 0, 0, 0, 0, 0, 0, 0, 0, 1] "aB000000000001".toList := by
    decide
  have hvalue : Nat.ofDigits 16 [10, 11, 0, 0, 0, 0, 0, 0, 0, 0, 0, 0, 0, 1].reverse =
      48132221017522177 := by decide
  have hread := ((prefixed_words_read hhex _).1 _ hspells (by decide)).1
  rw [hvalue] at hread
  refine ⟨hhex, hspells, hread (by decide), hoctal, ?_⟩
  exact (prefixed_words_read hoctal ['7', '8']).2 (Or.inr ⟨'8', by decide, by decide⟩)

/-- Digits whose value does not fit 64 bits are lost: the number nearest to `2 ^ 64` is not read. -/
theorem wide_integer_lost :
    let digits := 1 :: List.replicate 16 0
    Spells 16 digits "10000000000000000".toList ∧ Nat.ofDigits 16 digits.reverse = 2 ^ 64 ∧
      Datum.ofWord "0x10000000000000000" = .symbol "0x10000000000000000" ∧
      ¬ ∃ x, Datum.ofWord "0x10000000000000000" = .number x ∧
        x.IsNearest (2 ^ 64 * Binary64.one : Nat) := by
  intro digits
  have hsymbol : Datum.ofWord "0x10000000000000000" = .symbol "0x10000000000000000" := rfl
  refine ⟨?_, by decide, hsymbol, ?_⟩
  · decide
  · rintro ⟨x, hx, -⟩
    cases hsymbol.symm.trans hx

end Numeral

end SmallScheme
