import SmallScheme.Store
import SmallScheme.Proofs.Reading
import SmallScheme.Proofs.Renaming

/-! Printing a program and reading it again gives the program back.

The printed text lays out the tokens of the program, with other spacing and with other spellings of
numbers and booleans. The other spellings have no quotes, so the tokens stay coherent. -/
namespace SmallScheme

namespace Token
open Text

/-- The word has neither delimiters nor quotes. -/
def Plain (w : List Char) : Prop := ∀ c ∈ w, isDelimiter c = false ∧ isQuote c = false

theorem plain_of_all {w : List Char} (h : w.all (fun c => !isDelimiter c && !isQuote c) = true) :
    Plain w := by
  intro c hc
  simpa using List.all_eq_true.mp h c hc

theorem Plain.coherent {w : List Char} (h : Plain w) (ts : List Token) : CoherentWord ts 0 w := by
  induction w with
  | nil => rfl
  | cons c w ih =>
    obtain ⟨⟨hd, hq⟩, hw⟩ := List.forall_mem_cons.mp h
    refine ⟨hd, ?_, ?_⟩
    · intro hq'
      rw [hq] at hq'
      cases hq'
    · rw [hq, if_neg Bool.false_ne_true]
      exact ih hw

theorem Plain.unclosed {w : List Char} (h : Plain w) {q : Char} (hq : isQuote q = true) :
    closer? q false w = none := by
  refine closer?_eq_none_of_not_mem fun hmem => ?_
  rw [(h q hmem).2] at hq
  cases hq

end Token

namespace Numeral

theorem plain_of_isNumeric {c : Char} (h : isNumeric c = true) :
    Text.isDelimiter c = false ∧ Text.isQuote c = false := by
  have hrange : 0x2D ≤ c.toNat ∧ c.toNat ≤ 0x39 := by
    simp only [isNumeric, Bool.or_eq_true, decide_eq_true_eq] at h
    rcases h with (h | rfl) | rfl
    · exact ⟨Nat.le_trans (by decide) (Char.isDigit_iff_toNat.mp h).1, (Char.isDigit_iff_toNat.mp h).2⟩
    · decide
    · decide
  have hne (d : Char) (hd : d.toNat < 0x2D) : c ≠ d := by
    rintro rfl
    omega
  constructor
  · have hblank : Text.isBlank c = false := by
      unfold Text.isBlank
      simp
      omega
    rw [Text.isDelimiter, hblank]
    simp [hne '(' (by decide), hne ')' (by decide)]
  · simp [Text.isQuote, hne '"' (by decide), hne '\'' (by decide)]

theorem plain_text {x : Binary64} (hx : x ≠ .nan) : x.text ≠ "" ∧ Token.Plain x.text.toList := by
  cases x with
  | nan => exact absurd rfl hx
  | infinite negative =>
    cases negative
    · exact ⟨by decide, Token.plain_of_all rfl⟩
    · exact ⟨by decide, Token.plain_of_all rfl⟩
  | finite negative n hm =>
    by_cases hn : n = 0
    · rw [Binary64.text, if_pos hn]
      exact ⟨by decide, Token.plain_of_all rfl⟩
    · obtain ⟨whole, part, htext, hne, hw, hp, _⟩ := text_finite negative hm hn
      rw [htext, String.toList_ofList]
      refine ⟨?_, fun c hc => plain_of_isNumeric (isNumeric_written hw hp c hc)⟩
      intro h
      have hnil := congrArg String.toList h
      rw [String.toList_ofList] at hnil
      cases negative with
      | true => cases hnil
      | false => exact written_ne_nil hne hnil

end Numeral

namespace Datum
open Token

/-- A word that is spelled anew is plain. -/
theorem reprint_cases (w : String) : reprint (.word w) = .word w ∨
    ∃ v : String, reprint (.word w) = .word v ∧ v ≠ "" ∧ Plain v.toList := by
  rcases ofWord_cases w with ⟨b, h⟩ | ⟨x, hx, h⟩ | h
  · refine Or.inr ⟨boolText b, by rw [reprint, h]; rfl, ?_⟩
    cases b
    · exact ⟨by decide, plain_of_all rfl⟩
    · exact ⟨by decide, plain_of_all rfl⟩
  · exact Or.inr ⟨x.text, by rw [reprint, h]; rfl, Numeral.plain_text hx⟩
  · exact Or.inl (by rw [reprint, h]; rfl)

theorem unclosed_reprint {q : Char} {ts : List Token} (hq : Text.isQuote q = true)
    (h : Unclosed q ts) : Unclosed q (ts.map reprint) := by
  intro v hv
  obtain ⟨t, ht, hvt⟩ := List.mem_map.mp hv
  -- only words count, and a word is as it was or plain
  cases t with
  | lparen => cases hvt
  | rparen => cases hvt
  | word w =>
    rcases reprint_cases w with hsame | ⟨u, hu, _, hplain⟩
    · rw [hsame] at hvt
      cases hvt
      exact h v ht
    · rw [hu] at hvt
      cases hvt
      exact hplain.unclosed hq

/-- Coherent tokens stay coherent when their words are spelled anew. -/
theorem coherent_reprint {ts : List Token} (h : Coherent ts) : Coherent (ts.map reprint) := by
  induction ts with
  | nil => trivial
  | cons t ts ih =>
    cases t with
    | lparen => exact ih h
    | rparen => exact ih h
    | word w =>
      obtain ⟨hne, hw, hts⟩ := h
      rw [List.map_cons]
      rcases reprint_cases w with hsame | ⟨u, hu, hne', hplain⟩
      · rw [hsame]
        exact ⟨hne, hw.mono fun q hq => unclosed_reprint hq, ih hts⟩
      · rw [hu]
        exact ⟨hne', hplain.coherent _, ih hts⟩

mutual
/-- The text of a datum lays out its tokens. -/
theorem layout_text (d : Datum) {ts : List Token} {cs : List Char} (hd : Text.Delimited cs)
    (h : Layout ts cs) : Layout (d.tokens ++ ts) (d.text.toList ++ cs) := by
  cases d with
  | number x => exact Layout.word _ hd h
  | bool b => exact Layout.word _ hd h
  | symbol name => exact Layout.word _ hd h
  | list items =>
    have hclose : Layout (.rparen :: ts) (')' :: cs) :=
      Layout.delimiter (c := ')') (by decide) h
    have hitems := layout_texts items (by simp [Text.Delimited]; decide) hclose
    have hopen : Layout (.lparen :: (tokensAll items ++ .rparen :: ts))
        ('(' :: ((" ".intercalate (texts items)).toList ++ ')' :: cs)) :=
      Layout.delimiter (c := '(') (by decide) hitems
    simpa [tokens, text, String.toList_append] using hopen
theorem layout_texts (ds : List Datum) {ts : List Token} {cs : List Char} (hd : Text.Delimited cs)
    (h : Layout ts cs) :
    Layout (tokensAll ds ++ ts) ((" ".intercalate (texts ds)).toList ++ cs) := by
  match ds with
  | [] => simpa [tokensAll, texts] using h
  | [d] => simpa [tokensAll, texts] using layout_text d hd h
  | d :: e :: ds =>
    have hrest := layout_texts (e :: ds) hd h
    have hblank : Layout (tokensAll (e :: ds) ++ ts)
        (' ' :: ((" ".intercalate (texts (e :: ds))).toList ++ cs)) :=
      Layout.delimiter (c := ' ') (by decide) hrest
    have hd' : Text.Delimited (' ' :: ((" ".intercalate (texts (e :: ds))).toList ++ cs)) := by
      simp [Text.Delimited]
      decide
    have hall := layout_text d hd' hblank
    rw [tokensAll, List.append_assoc, texts, texts, String.intercalate_cons_cons]
    simpa [String.toList_append] using hall
end

theorem ofWord_of_read? {w : String} {x : Binary64} (h : Numeral.read? w = some x) :
    ofWord w = number x := by
  have hne (v : String) (hv : Numeral.read? v = none) : w ≠ v := by
    rintro rfl
    rw [hv] at h
    cases h
  unfold ofWord
  simp [hne "#t" rfl, hne "#true" rfl, hne "#f" rfl, hne "#false" rfl, h]

theorem ofWord_boolText (b : Bool) : ofWord (boolText b) = bool b := by
  cases b <;> simp [ofWord, boolText]

/-- The texts of coherent data, joined by blanks, have the tokens of the data. -/
theorem tokenize_texts {ds : List Datum} (h : Coherent (tokensAll ds)) :
    tokenize (" ".intercalate (ds.map text)) = tokensAll ds := by
  have hend : Text.Delimited [] := by simp [Text.Delimited]
  have hlayout := layout_texts ds hend Layout.nil
  rw [List.append_nil, List.append_nil, texts_eq_map] at hlayout
  exact hlayout.scan h

end Datum

namespace Value

mutual
/-- A loaded datum has the text of the datum. -/
theorem text_load (d : Datum) (n : Nat) : (load d n).1.text = d.text := by
  cases d with
  | number x => rfl
  | bool b => rfl
  | symbol name => rfl
  | list items =>
    have hitems := texts_loadAll items (n + 1)
    rw [load]
    dsimp only
    rw [text_list, hitems, Datum.text, Datum.texts_eq_map]
theorem texts_loadAll (ds : List Datum) (n : Nat) :
    (loadAll ds n).1.map text = ds.map Datum.text := by
  cases ds with
  | nil => rfl
  | cons d ds =>
    rw [loadAll]
    dsimp only
    rw [List.map_cons, List.map_cons, text_load d n, texts_loadAll ds]
end

mutual
/-- A datum that could be read is the same when it is read again. -/
theorem same_load_reread {d : Datum} (h : d.Readable) (m n : Nat) :
    (load d m).1.same (load d.reread n).1 = true := by
  cases d with
  | number x =>
    obtain ⟨y, hy, hsame⟩ := Numeral.read?_text h
    rw [Datum.reread, Datum.ofWord_of_read? hy]
    exact hsame
  | bool b =>
    rw [Datum.reread, Datum.ofWord_boolText]
    exact decide_eq_true rfl
  | symbol name =>
    have hname : Datum.ofWord name = .symbol name := h
    rw [Datum.reread, hname]
    exact decide_eq_true rfl
  | list items =>
    rw [Datum.reread, load, load]
    dsimp only
    rw [same]
    exact sameAll_loadAll_reread h (m + 1) (n + 1)
theorem sameAll_loadAll_reread {ds : List Datum} (h : Datum.ReadableAll ds) (m n : Nat) :
    sameAll (loadAll ds m).1 (loadAll (Datum.rereadAll ds) n).1 = true := by
  cases ds with
  | nil => rfl
  | cons d ds =>
    rw [Datum.rereadAll, loadAll, loadAll]
    dsimp only
    rw [sameAll, same_load_reread h.1, sameAll_loadAll_reread h.2]
    rfl
end

end Value

/-- Printing then reading gives the program back. The values of a program that can be read to its end,
printed and joined by single blanks, are read to the end again as values with the same content. -/
theorem reading_printed {text : String} {vs : List Datum}
    (h : (Program.ofText text).complete = .ok vs) (m n : Nat) :
    ∃ ws, (Program.ofText (" ".intercalate ((Value.loadAll vs m).1.map Value.text))).complete =
        .ok ws ∧
      Value.sameAll (Value.loadAll vs m).1 (Value.loadAll ws n).1 = true := by
  have hfault : (Program.ofText text).fault? = none := by
    unfold Program.complete at h
    split at h
    · assumption
    · cases h
  have hforms : (Program.ofText text).forms = vs := by
    rw [Program.complete, hfault] at h
    exact Except.ok.inj h
  -- the program has the tokens of its text, spelled anew, and those come back from its own text
  have htokens : Datum.tokensAll vs = (tokenize text).map Datum.reprint := by
    rw [← hforms]
    exact Program.tokens_of_complete hfault
  have hcoherent : Token.Coherent (Datum.tokensAll vs) := by
    rw [htokens]
    exact Datum.coherent_reprint (tokenize_coherent text)
  have hreadable : Datum.ReadableAll vs := by
    rw [← hforms]
    exact Program.readable _
  refine ⟨Datum.rereadAll vs, ?_, Value.sameAll_loadAll_reread hreadable m n⟩
  rw [Value.texts_loadAll, Program.ofText, Datum.tokenize_texts hcoherent,
    Program.ofTokens_tokensAll]
  rfl

/-- A list with a literal that has a blank in it, a negative zero, a long boolean, a literal that
protects a parenthesis, and a quote that nothing closes. -/
theorem reading_printed_quotes :
    let text := "( 'x y' -0 #true(a\"b\\)\"c ) d'e\\ )"
    let vs : List Datum := [.list [.symbol "'x y'", .number (.zero true), .bool true,
      .list [.symbol "a\"b\\)\"c"], .symbol "d'e\\"]]
    (Program.ofText text).complete = .ok vs ∧
      ∃ ws, (Program.ofText (" ".intercalate ((Value.loadAll vs 0).1.map Value.text))).complete =
          .ok ws ∧
        Value.sameAll (Value.loadAll vs 0).1 (Value.loadAll ws 7).1 = true := by
  intro text vs
  have htokens : tokenize text = [.lparen, .word "'x y'", .word "-0", .word "#true", .lparen,
      .word "a\"b\\)\"c", .rparen, .word "d'e\\", .rparen] := by decide
  have hzero : Datum.ofWord "-0" = .number (.zero true) :=
    Datum.ofWord_of_read? (Numeral.read?_zero true)
  have hread : (Program.ofText text).complete = .ok vs := by
    rw [Program.ofText, htokens, Program.ofTokens, dif_neg (List.cons_ne_nil _ _)]
    simp only [Datum.read, Datum.readIn, hzero]
    rw [Program.ofTokens]
    rfl
  exact ⟨hread, reading_printed hread 0 7⟩

end SmallScheme
