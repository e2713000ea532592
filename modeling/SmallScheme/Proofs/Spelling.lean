import SmallScheme.Numeral
import SmallScheme.Proofs.Decimal

/-! The spellings of decimals: a grammar, and reading accepts exactly what it describes.

Besides decimals, words are read for infinities and for not-a-number. Each of them has a letter that
stands in no decimal, so once such letters are turned away only the decimals are left. -/
namespace SmallScheme.Numeral

/-- Every character is a decimal digit. -/
abbrev AllDigits (cs : List Char) : Prop := ∀ c ∈ cs, c.isDigit = true

/-- An optional sign. -/
def IsSign (cs : List Char) : Prop := cs = [] ∨ cs = ['+'] ∨ cs = ['-']

/-- One digit or more. -/
structure IsDigits (cs : List Char) : Prop where
  nonempty : cs ≠ []
  digits : AllDigits cs

/-- Digits, with an optional point after, among or before them. -/
inductive IsMantissa : List Char → Prop
  | integral {ds} (h : IsDigits ds) : IsMantissa ds
  | pointed {ds fs} (h : IsDigits ds) (hf : AllDigits fs) : IsMantissa (ds ++ '.' :: fs)
  | fractional {fs} (h : IsDigits fs) : IsMantissa ('.' :: fs)

/-- An optional power of ten. -/
inductive IsExponent : List Char → Prop
  | absent : IsExponent []
  | marked {c sign ds} (hc : c = 'e' ∨ c = 'E') (hs : IsSign sign) (hd : IsDigits ds) :
      IsExponent (c :: (sign ++ ds))

/-- The grammar of decimals. -/
def IsDecimal (cs : List Char) : Prop :=
  ∃ sign mantissa exponent, IsSign sign ∧ IsMantissa mantissa ∧ IsExponent exponent ∧
    cs = sign ++ (mantissa ++ exponent)

theorem digits_append {ds rest : List Char} (hd : AllDigits ds)
    (hr : ∀ c ∈ rest.head?, c.isDigit = false) : digits (ds ++ rest) = (ds, rest) := by
  unfold digits
  rw [List.takeWhile_append_of_pos hd, List.dropWhile_append_of_pos hd]
  cases rest with
  | nil => simp
  | cons c rest =>
    have hc := hr c rfl
    simp [hc]

theorem digits_eq (cs : List Char) :
    cs = (digits cs).1 ++ (digits cs).2 ∧ AllDigits (digits cs).1 :=
  ⟨(List.takeWhile_append_dropWhile).symm, List.all_eq_true.mp List.all_takeWhile⟩

theorem sign_eq (cs : List Char) : ∃ s, IsSign s ∧ cs = s ++ (sign cs).2 := by
  unfold sign
  split
  · exact ⟨['-'], Or.inr (Or.inr rfl), rfl⟩
  · exact ⟨['+'], Or.inr (Or.inl rfl), rfl⟩
  · exact ⟨[], Or.inl rfl, rfl⟩

theorem sign_append {s rest : List Char} (hs : IsSign s)
    (hr : ∀ c ∈ rest.head?, c ≠ '+' ∧ c ≠ '-') : (sign (s ++ rest)).2 = rest := by
  rcases hs with rfl | rfl | rfl
  · rw [List.nil_append]
    unfold sign
    split
    · exact absurd rfl (hr '-' rfl).2
    · exact absurd rfl (hr '+' rfl).1
    · rfl
  · rfl
  · rfl

/-- The fraction is what stands after a point. -/
theorem fraction_eq (cs : List Char) : AllDigits (fraction cs).1 ∧
    ((fraction cs).1 = [] ∧ cs = (fraction cs).2 ∨ cs = '.' :: ((fraction cs).1 ++ (fraction cs).2)) := by
  unfold fraction
  split
  · next cs =>
    obtain ⟨hcs, hdigits⟩ := digits_eq cs
    exact ⟨hdigits, Or.inr (congrArg ('.' :: ·) hcs)⟩
  · exact ⟨fun c hc => absurd hc List.not_mem_nil, Or.inl ⟨rfl, rfl⟩⟩

theorem fraction_of_head {cs : List Char} (h : ∀ c ∈ cs.head?, c ≠ '.') : fraction cs = ([], cs) := by
  unfold fraction
  split
  · exact absurd rfl (h '.' rfl)
  · rfl

theorem isExponent_of_exponent? {cs : List Char} {e : Int} (h : exponent? cs = some e) :
    IsExponent cs := by
  cases cs with
  | nil => exact .absent
  | cons c cs =>
    rw [exponent?] at h
    split at h
    · next hc =>
      obtain ⟨s, hs, hcs⟩ := sign_eq cs
      obtain ⟨hparts, hdigits⟩ := digits_eq (sign cs).2
      dsimp only at h
      split at h
      · cases h
      · next hend =>
        rw [Bool.or_eq_true, Bool.not_eq_true', not_or, Bool.not_eq_true, Bool.not_eq_false,
          List.isEmpty_eq_false_iff, List.isEmpty_iff] at hend
        rw [hend.2, List.append_nil] at hparts
        rw [hcs, hparts]
        exact .marked (by simpa using hc) hs ⟨hend.1, hdigits⟩
    · cases h

theorem IsDigits.head {ds : List Char} (h : IsDigits ds) (rest : List Char) :
    ∀ c ∈ (ds ++ rest).head?, c.isDigit = true := by
  cases ds with
  | nil => exact absurd rfl h.nonempty
  | cons d ds =>
    rintro c ⟨⟩
    exact h.digits d List.mem_cons_self

theorem ne_of_isDigit {c d : Char} (hc : c.isDigit = true) (hd : d.isDigit = false) : c ≠ d := by
  rintro rfl
  rw [hc] at hd
  cases hd

theorem IsExponent.exponent?_isSome {cs : List Char} (h : IsExponent cs) :
    (exponent? cs).isSome = true := by
  cases h with
  | absent => rfl
  | @marked c s ds hc hs hd =>
    have hsign : (sign (s ++ ds)).2 = ds := by
      refine sign_append hs fun d hmem => ?_
      have hdigit := hd.head [] d (by rwa [List.append_nil])
      exact ⟨ne_of_isDigit hdigit rfl, ne_of_isDigit hdigit rfl⟩
    have hdigits : digits ds = (ds, []) := by
      have happend : digits (ds ++ []) = (ds, []) := digits_append hd.digits (by simp)
      rwa [List.append_nil] at happend
    have hmark : (c = 'e' || c = 'E') = true := by simpa using hc
    rw [exponent?, if_pos hmark]
    dsimp only
    rw [hsign, hdigits]
    dsimp only
    rw [List.isEmpty_eq_false_iff.mpr hd.nonempty]
    rfl

/-- An exponent starts with its mark. -/
theorem IsExponent.head {cs : List Char} (h : IsExponent cs) {c : Char} (hc : c ∈ cs.head?) :
    c = 'e' ∨ c = 'E' := by
  cases h with
  | absent => cases hc
  | marked hmark =>
    cases hc
    exact hmark

theorem isDecimal_of_decimal? {cs : List Char} {x : Binary64} (h : decimal? cs = some x) :
    IsDecimal cs := by
  obtain ⟨s, hs, hcs⟩ := sign_eq cs
  obtain ⟨hwhole, hdigits⟩ := digits_eq (sign cs).2
  obtain ⟨hpartDigits, hpart⟩ := fraction_eq (digits (sign cs).2).2
  unfold decimal? at h
  dsimp only at h
  split at h
  · cases h
  next hne =>
  obtain ⟨e, he, -⟩ := Option.map_eq_some_iff.mp h
  have hexponent := isExponent_of_exponent? he
  rw [Bool.and_eq_true, List.isEmpty_iff, List.isEmpty_iff, not_and] at hne
  -- the mantissa is all up to the exponent; its shape depends on the point and on the digits before it
  rcases hpart with ⟨hnil, hrest⟩ | hrest
  · refine ⟨s, _, _, hs, .integral ⟨fun hw => hne hw hnil, hdigits⟩, hexponent, ?_⟩
    rw [← hrest, ← hwhole, ← hcs]
  by_cases hw : (digits (sign cs).2).1 = []
  · refine ⟨s, _, _, hs, .fractional ⟨hne hw, hpartDigits⟩, hexponent, ?_⟩
    rw [List.cons_append, ← hrest, ← List.nil_append (digits (sign cs).2).2, ← hw, ← hwhole, ← hcs]
  · refine ⟨s, _, _, hs, .pointed ⟨hw, hdigits⟩ hpartDigits, hexponent, ?_⟩
    rw [List.append_assoc, List.cons_append, ← hrest, ← hwhole, ← hcs]

/-- The parts of a mantissa are found before anything that cannot be a part of it. -/
theorem IsMantissa.parts {m rest : List Char} (h : IsMantissa m)
    (hr : ∀ c ∈ rest.head?, c = 'e' ∨ c = 'E') :
    (∀ c ∈ (m ++ rest).head?, c ≠ '+' ∧ c ≠ '-') ∧
      ∃ whole part, ((digits (m ++ rest)).1 = whole ∧ fraction (digits (m ++ rest)).2 = (part, rest)) ∧
        (whole.isEmpty && part.isEmpty) = false := by
  have hdigit : ∀ c ∈ rest.head?, c.isDigit = false := by
    intro c hc
    rcases hr c hc with rfl | rfl <;> rfl
  have hpoint : ∀ c ∈ rest.head?, c ≠ '.' := by
    intro c hc
    rcases hr c hc with rfl | rfl <;> decide
  have hunsigned {c : Char} (hc : c.isDigit = true) : c ≠ '+' ∧ c ≠ '-' :=
    ⟨ne_of_isDigit hc rfl, ne_of_isDigit hc rfl⟩
  cases h with
  | integral h =>
    refine ⟨fun c hc => hunsigned (h.head rest c hc), m, [], ?_, ?_⟩
    · rw [digits_append h.digits hdigit]
      exact ⟨rfl, fraction_of_head hpoint⟩
    · rw [List.isEmpty_eq_false_iff.mpr h.nonempty, Bool.false_and]
  | @pointed ds fs h hf =>
    refine ⟨?_, ds, fs, ?_, ?_⟩
    · rw [List.append_assoc]
      exact fun c hc => hunsigned (h.head _ c hc)
    · rw [List.append_assoc, List.cons_append, digits_append h.digits (by simp)]
      exact ⟨rfl, digits_append hf hdigit⟩
    · rw [List.isEmpty_eq_false_iff.mpr h.nonempty, Bool.false_and]
  | @fractional fs h =>
    refine ⟨?_, [], fs, ?_, ?_⟩
    · rintro c ⟨⟩
      decide
    · exact ⟨rfl, digits_append h.digits hdigit⟩
    · rw [List.isEmpty_eq_false_iff.mpr h.nonempty, Bool.and_false]

theorem IsDecimal.decimal?_isSome {cs : List Char} (h : IsDecimal cs) :
    (decimal? cs).isSome = true := by
  obtain ⟨s, m, e, hs, hm, he, rfl⟩ := h
  obtain ⟨hhead, whole, part, ⟨hwhole, hpart⟩, hne⟩ := hm.parts fun c hc => he.head hc
  unfold decimal?
  dsimp only
  rw [sign_append hs hhead, hwhole, hpart]
  dsimp only
  rw [hne, if_neg Bool.false_ne_true, Option.isSome_map]
  exact he.exponent?_isSome

/-- Exactly the decimals are read as such. -/
theorem decimal?_isSome_iff (cs : List Char) : (decimal? cs).isSome = true ↔ IsDecimal cs := by
  refine ⟨fun h => ?_, IsDecimal.decimal?_isSome⟩
  obtain ⟨x, hx⟩ := Option.isSome_iff_exists.mp h
  exact isDecimal_of_decimal? hx

theorem decimal?_ne_nan (cs : List Char) : decimal? cs ≠ some .nan := by
  unfold decimal?
  dsimp only
  split
  · nofun
  · intro h
    obtain ⟨e, _, he⟩ := Option.map_eq_some_iff.mp h
    unfold Decimal.toBinary64 at he
    split at he
    · exact Binary64.ofQuanta_ne_nan _ _ _ he
    split at he
    · cases he
    split at he
    · exact Binary64.ofQuanta_ne_nan _ _ _ he
    · exact Binary64.ofQuanta_ne_nan _ _ _ he

theorem isAlpha_iff_toNat {c : Char} : c.isAlpha = true ↔
    (65 ≤ c.toNat ∧ c.toNat ≤ 90) ∨ (97 ≤ c.toNat ∧ c.toNat ≤ 122) := by
  have hranges : c.isAlpha = (decide ('A'.val ≤ c.val ∧ c.val ≤ 'Z'.val) ||
      (decide ('a'.val ≤ c.val) && decide (c.val ≤ 'z'.val))) := rfl
  simp only [hranges, Bool.or_eq_true, Bool.and_eq_true, decide_eq_true_eq, UInt32.le_iff_toNat_le]
  exact Iff.rfl

theorem isForeign_of_isDigit {c : Char} (h : c.isDigit = true) : isForeign c = false := by
  have hbounds : 48 ≤ c.toNat ∧ c.toNat ≤ 57 := Char.isDigit_iff_toNat.mp h
  have halpha : c.isAlpha = false := by
    rw [← Bool.not_eq_true, isAlpha_iff_toNat]
    omega
  rw [isForeign, halpha]
  rfl

theorem IsSign.not_foreign {cs : List Char} (h : IsSign cs) : ∀ c ∈ cs, isForeign c = false := by
  rcases h with rfl | rfl | rfl
  · exact fun c hc => absurd hc List.not_mem_nil
  · exact List.forall_mem_singleton.mpr (by decide)
  · exact List.forall_mem_singleton.mpr (by decide)

theorem IsDigits.not_foreign {cs : List Char} (h : IsDigits cs) : ∀ c ∈ cs, isForeign c = false :=
  fun c hc => isForeign_of_isDigit (h.digits c hc)

/-- No character of a decimal is a foreign letter. -/
theorem IsDecimal.not_foreign {cs : List Char} (h : IsDecimal cs) : ∀ c ∈ cs, isForeign c = false := by
  obtain ⟨s, m, e, hs, hm, he, rfl⟩ := h
  have hmantissa : ∀ c ∈ m, isForeign c = false := by
    cases hm with
    | integral h => exact h.not_foreign
    | pointed h hf =>
      refine List.forall_mem_append.mpr ⟨h.not_foreign, List.forall_mem_cons.mpr ⟨rfl, ?_⟩⟩
      exact fun c hc => isForeign_of_isDigit (hf c hc)
    | fractional h => exact List.forall_mem_cons.mpr ⟨rfl, h.not_foreign⟩
  have hexponent : ∀ c ∈ e, isForeign c = false := by
    cases he with
    | absent => exact fun c hc => absurd hc List.not_mem_nil
    | marked hc hs hd =>
      refine List.forall_mem_cons.mpr ⟨?_, List.forall_mem_append.mpr ⟨hs.not_foreign, hd.not_foreign⟩⟩
      rcases hc with rfl | rfl <;> rfl
  exact List.forall_mem_append.mpr ⟨hs.not_foreign, List.forall_mem_append.mpr ⟨hmantissa, hexponent⟩⟩

/-- A letter is foreign in either case. -/
theorem isForeign_of_toLower {c : Char} (h : c.toLower = 'i' ∨ c.toLower = 'n') :
    isForeign c = true := by
  have hcases : c = 'i' ∨ c = 'I' ∨ c = 'n' ∨ c = 'N' := by
    simp only [Char.ext_iff, ← UInt32.toNat_inj] at h ⊢
    unfold Char.toLower at h
    split at h
    · next hupper =>
      rw [ge_iff_le, UInt32.le_iff_toNat_le, UInt32.le_iff_toNat_le] at hupper
      rw [UInt32.toNat_add] at h
      change 65 ≤ c.val.toNat ∧ c.val.toNat ≤ 90 at hupper
      change (c.val.toNat + 32) % 2 ^ 32 = 105 ∨ (c.val.toNat + 32) % 2 ^ 32 = 110 at h
      change c.val.toNat = 105 ∨ c.val.toNat = 73 ∨ c.val.toNat = 110 ∨ c.val.toNat = 78
      omega
    · rcases h with h | h
      · exact Or.inl h
      · exact Or.inr (Or.inr (Or.inl h))
  rcases hcases with rfl | rfl | rfl | rfl <;> rfl

/-- The words for special numbers start with a foreign letter. -/
theorem special?_eq_none {cs : List Char} (h : cs.any isForeign = false) : special? cs = none := by
  obtain ⟨s, -, hcs⟩ := sign_eq cs
  have hword (w : Char) (ws : List Char) (hw : w = 'i' ∨ w = 'n') :
      String.ofList ((sign cs).2.map Char.toLower) ≠ String.ofList (w :: ws) := by
    intro heq
    obtain ⟨c, rest, hparts, hlower, -⟩ := List.map_eq_cons_iff.mp (String.ofList_injective heq)
    have hc : c ∈ cs := by
      rw [hcs, hparts]
      exact List.mem_append_right _ List.mem_cons_self
    exact List.any_eq_false.mp h c hc (isForeign_of_toLower (hlower ▸ hw))
  have hinf : _ ≠ "inf" := hword 'i' ['n', 'f'] (Or.inl rfl)
  have hinfinity : _ ≠ "infinity" := hword 'i' ['n', 'f', 'i', 'n', 'i', 't', 'y'] (Or.inl rfl)
  have hnan : _ ≠ "nan" := hword 'n' ['a', 'n'] (Or.inr rfl)
  simp [special?, hinf, hinfinity, hnan]

/-- Without a radix, only decimals are numerals. -/
theorem plain?_eq_decimal? (cs : List Char) : plain? cs = decimal? cs := by
  unfold plain?
  split
  · next h =>
    obtain ⟨c, hc, hforeign⟩ := List.any_eq_true.mp h
    cases hx : decimal? cs with
    | none => rfl
    | some x =>
      rw [(isDecimal_of_decimal? hx).not_foreign c hc] at hforeign
      cases hforeign
  · next h =>
    rw [float?, special?_eq_none (Bool.not_eq_true _ ▸ h), Option.or_none]
    cases hx : decimal? cs with
    | none => rfl
    | some x =>
      have hnan : x ≠ .nan := by
        rintro rfl
        exact decimal?_ne_nan cs hx
      cases x with
      | nan => exact absurd rfl hnan
      | _ => rfl

/-- Where no radix is announced, only decimals are numerals. -/
theorem ofDigits?_eq_decimal? {cs : List Char} (h : ∀ c rest, cs = '0' :: c :: rest → radix? c = none) :
    ofDigits? cs = decimal? cs := by
  unfold ofDigits?
  split
  · next c rest =>
    rw [h c rest rfl]
    exact plain?_eq_decimal? _
  · exact plain?_eq_decimal? _

theorem ofDigits?_radix {c : Char} {radix : Nat} (h : radix? c = some radix) (cs : List Char) :
    ofDigits? ('0' :: c :: cs) = integer? radix cs := by
  rw [ofDigits?, h]

end SmallScheme.Numeral
