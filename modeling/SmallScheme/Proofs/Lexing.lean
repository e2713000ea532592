import SmallScheme.Token

/-! Where a text is cut into tokens.

A quote looks for its closer in the whole rest of the text, so what a word is depends on all that
comes after it. Tokens are coherent when every quote in them is accounted for: it is closed inside
its word, or nothing after it would close it. The tokens of a text are coherent, and coherent tokens
come back from every text that lays them out one after another, whatever the spacing. -/
namespace SmallScheme

namespace Text

/-- Where a literal that was opened by `q` ends, taking one character at a time. A backslash that is
not `escaped` protects the next character. -/
def closer? (q : Char) (escaped : Bool) : List Char → Option Nat
  | [] => none
  | c :: cs =>
    if !escaped && c != '\\' && c == q then some 1
    else (closer? q (!escaped && c == '\\') cs).map (· + 1)

theorem literalLength?_eq_closer? (q : Char) (cs : List Char) :
    literalLength? q cs = closer? q false cs := by
  fun_induction literalLength? q cs with
  | case1 => rfl
  | case2 => rfl
  | case3 c cs ih => simp [closer?, ih, Function.comp_def]
  | case4 cs hlast hpair =>
    have hb : q ≠ '\\' := by
      intro h
      cases cs with
      | nil => exact hlast h rfl
      | cons d cs => exact hpair d cs h rfl
    simp [closer?, hb]
  | case5 c cs hlast hpair hc ih =>
    have hb : c ≠ '\\' := by
      intro h
      cases cs with
      | nil => exact hlast h rfl
      | cons d cs => exact hpair d cs h rfl
    simp [closer?, beq_false_of_ne hb, hc, hb, ih]

theorem closer?_self {q : Char} (hq : isQuote q = true) (cs : List Char) :
    closer? q false (q :: cs) = some 1 := by
  have hb : q ≠ '\\' := by
    rintro rfl
    cases hq
  simp [closer?, hb]

theorem closer?_other {q c : Char} (hb : c ≠ '\\') (hc : q ≠ c) (cs : List Char) :
    closer? q false (c :: cs) = (closer? q false cs).map (· + 1) := by
  simp [closer?, beq_false_of_ne hb, Ne.symm hc]

section
variable {q : Char} {escaped : Bool} {n : Nat} {cs : List Char}

theorem closer?_cons_eq_none {c : Char} : closer? q escaped (c :: cs) = none ↔
    (!escaped && c != '\\' && c == q) = false ∧ closer? q (!escaped && c == '\\') cs = none := by
  rw [closer?]
  split
  · next h => simp [h]
  · next h => simp [h]

/-- A literal is inside the text. -/
theorem closer?_le (h : closer? q escaped cs = some n) : n ≤ cs.length := by
  fun_induction closer? q escaped cs generalizing n with
  | case1 => cases h
  | case2 escaped c cs hc =>
    cases h
    exact Nat.succ_le_succ (Nat.zero_le _)
  | case3 escaped c cs hc ih =>
    obtain ⟨m, hm, rfl⟩ := Option.map_eq_some_iff.mp h
    exact Nat.succ_le_succ (ih hm)

/-- The end of a literal does not depend on what comes after it. -/
theorem closer?_take_append (h : closer? q escaped cs = some n) (more : List Char) :
    closer? q escaped (cs.take n ++ more) = some n := by
  fun_induction closer? q escaped cs generalizing n with
  | case1 => cases h
  | case2 escaped c cs hc =>
    cases h
    rw [List.take_succ_cons, List.cons_append, closer?, if_pos hc]
  | case3 escaped c cs hc ih =>
    obtain ⟨m, hm, rfl⟩ := Option.map_eq_some_iff.mp h
    rw [List.take_succ_cons, List.cons_append, closer?, if_neg hc, ih hm]
    rfl

theorem closer?_append (h : closer? q escaped cs = some n) (more : List Char) :
    closer? q escaped (cs ++ more) = some n := by
  -- only the text up to the closer matters
  have hsplit : cs ++ more = cs.take n ++ (cs.drop n ++ more) := by
    rw [← List.append_assoc, List.take_append_drop]
  rw [hsplit]
  exact closer?_take_append h _

/-- Text that closes nothing passes the question on, whatever it protects at its end. -/
theorem closer?_append_eq_none {more : List Char} (h : closer? q escaped cs = none)
    (hmore : ∀ b, closer? q b more = none) : closer? q escaped (cs ++ more) = none := by
  induction cs generalizing escaped with
  | nil => exact hmore escaped
  | cons c cs ih =>
    rw [List.cons_append, closer?_cons_eq_none]
    rw [closer?_cons_eq_none] at h
    exact ⟨h.1, ih h.2⟩

theorem closer?_eq_none_of_not_mem (h : q ∉ cs) : closer? q escaped cs = none := by
  induction cs generalizing escaped with
  | nil => rfl
  | cons c cs ih =>
    rw [List.mem_cons, not_or] at h
    refine closer?_cons_eq_none.mpr ⟨?_, ih h.2⟩
    simp [Ne.symm h.1]

end

/-- The characters that end a word outside of literals. -/
def isDelimiter (c : Char) : Bool := c = '(' || c = ')' || isBlank c

theorem isDelimiter_of_isQuote {q : Char} (h : isQuote q = true) : isDelimiter q = false := by
  unfold isQuote at h
  rcases (Bool.or_eq_true _ _).mp h with h | h
  · rw [of_decide_eq_true h]
    decide
  · rw [of_decide_eq_true h]
    decide

theorem isDelimiter_of_isBlank {c : Char} (hc : isBlank c = true) : isDelimiter c = true := by
  simp [isDelimiter, hc]

/-- The text ends here or goes on with a delimiter. -/
def Delimited (cs : List Char) : Prop := ∀ c ∈ cs.head?, isDelimiter c = true

/-- A delimiter neither closes a literal nor protects what follows. -/
theorem closer?_delimiter {q c : Char} {escaped : Bool} {cs : List Char} (hq : isQuote q = true)
    (hc : isDelimiter c = true) :
    closer? q escaped (c :: cs) = (closer? q false cs).map (· + 1) := by
  have hcq : c ≠ q := by
    rintro rfl
    rw [isDelimiter_of_isQuote hq] at hc
    cases hc
  have hcb : c ≠ '\\' := by
    rintro rfl
    cases hc
  simp [closer?, hcq, beq_false_of_ne hcb]

theorem closer?_delimited {q : Char} {cs : List Char} (hq : isQuote q = true) (h : Delimited cs)
    (hnone : closer? q false cs = none) (escaped : Bool) : closer? q escaped cs = none := by
  cases cs with
  | nil => rfl
  | cons c cs =>
    have hc : isDelimiter c = true := h c rfl
    rw [closer?_delimiter hq hc] at hnone ⊢
    exact hnone

end Text

namespace Token
open Text

/-- The token that a delimiter stands for, if it is not a blank. -/
def mark (c : Char) : List Token := if c = '(' then [lparen] else if c = ')' then [rparen] else []

theorem word_not_mem_mark (c : Char) (w : String) : .word w ∉ mark c := by
  unfold mark
  split
  · simp
  split <;> simp

theorem mark_blank {c : Char} (hc : isBlank c = true) : mark c = [] := by
  have hopen : c ≠ '(' := by
    rintro rfl
    cases hc
  have hclose : c ≠ ')' := by
    rintro rfl
    cases hc
  simp [mark, hopen, hclose]

theorem withWord_append (current : List Char) (ts us : List Token) :
    withWord current ts ++ us = withWord current (ts ++ us) := by
  unfold withWord
  split <;> rfl

/-- A delimiter outside of literals ends the word before it. -/
theorem scan_delimiter {c : Char} (h : isDelimiter c = true) (current cs : List Char) :
    scan 0 current (c :: cs) = withWord current (mark c ++ scan 0 [] cs) := by
  unfold mark
  rw [scan]
  split
  · rfl
  split
  · rfl
  · next h1 h2 =>
    have hb : isBlank c = true := by simpa [isDelimiter, h1, h2] using h
    rw [if_pos hb]
    rfl

/-- Any other character outside of literals belongs to a word, and a quote that is closed starts a
literal. -/
theorem scan_other {c : Char} (h : isDelimiter c = false) (current cs : List Char) :
    scan 0 current (c :: cs) =
      scan (if isQuote c then (literalLength? c cs).getD 0 else 0) (c :: current) cs := by
  simp only [isDelimiter, Bool.or_eq_false_iff, decide_eq_false_iff_not] at h
  obtain ⟨⟨h1, h2⟩, hb⟩ := h
  rw [scan, if_neg h1, if_neg h2, hb, if_neg Bool.false_ne_true]
  split <;> rfl

/-- The characters of an open literal belong to the word. -/
theorem scan_literal (body current cs : List Char) :
    scan body.length current (body ++ cs) = scan 0 (body.reverse ++ current) cs := by
  induction body generalizing current with
  | nil => rfl
  | cons c body ih =>
    rw [List.cons_append, List.length_cons, scan, ih, List.reverse_cons, List.append_assoc]
    rfl

/-- No word of the tokens closes a literal that was opened by `q` before it. -/
def Unclosed (q : Char) (ts : List Token) : Prop :=
  ∀ w, .word w ∈ ts → closer? q false w.toList = none

/-- Every quote in a word that stands before `ts` is closed in the word, or nothing would close it.
The first `literal` characters of the word belong to a literal. -/
def CoherentWord (ts : List Token) : (literal : Nat) → List Char → Prop
  | k, [] => k = 0
  | k + 1, _ :: cs => CoherentWord ts k cs
  | 0, c :: cs => isDelimiter c = false ∧
      (isQuote c = true → literalLength? c cs = none → Unclosed c ts) ∧
      CoherentWord ts (if isQuote c then (literalLength? c cs).getD 0 else 0) cs

theorem CoherentWord.mono {ts ts' : List Token} {literal : Nat} {w : List Char}
    (h : CoherentWord ts literal w) (hts : ∀ q, isQuote q = true → Unclosed q ts → Unclosed q ts') :
    CoherentWord ts' literal w := by
  induction w generalizing literal with
  | nil => exact h
  | cons c w ih =>
    cases literal with
    | succ k => exact ih h
    | zero =>
      obtain ⟨hd, hstray, hrest⟩ := h
      exact ⟨hd, fun hq hnone => hts c hq (hstray hq hnone), ih hrest⟩

/-- Every quote in the words of the tokens is closed in its word, or nothing would close it. -/
def Coherent : List Token → Prop
  | [] => True
  | .word w :: ts => w ≠ "" ∧ CoherentWord ts 0 w.toList ∧ Coherent ts
  | _ :: ts => Coherent ts

theorem coherent_mark_append {c : Char} {ts : List Token} : Coherent (mark c ++ ts) ↔ Coherent ts := by
  unfold mark
  split
  · rfl
  split
  · rfl
  · rfl

theorem unclosed_mark_append {q c : Char} {ts : List Token} (h : Unclosed q ts) :
    Unclosed q (mark c ++ ts) := by
  intro w hw
  rcases List.mem_append.mp hw with hm | hw
  · exact absurd hm (word_not_mem_mark c w)
  · exact h w hw

theorem withWord_reverse_cons (c : Char) (w : List Char) (ts : List Token) :
    withWord (c :: w).reverse ts = .word (String.ofList (c :: w)) :: ts := by
  simp [withWord]

theorem coherent_withWord {w : List Char} {ts : List Token} (hw : CoherentWord ts 0 w)
    (hts : Coherent ts) : Coherent (withWord w.reverse ts) := by
  cases w with
  | nil => exact hts
  | cons c w =>
    rw [withWord_reverse_cons]
    refine ⟨?_, ?_, hts⟩
    · intro h
      have := congrArg String.toList h
      simp at this
    · rwa [String.toList_ofList]

theorem unclosed_withWord {q : Char} {w : List Char} {ts : List Token}
    (hw : closer? q false w = none) (hts : Unclosed q ts) : Unclosed q (withWord w.reverse ts) := by
  cases w with
  | nil => exact hts
  | cons c w =>
    rw [withWord_reverse_cons]
    intro v hv
    rcases List.mem_cons.mp hv with he | hv
    · cases he
      rwa [String.toList_ofList]
    · exact hts v hv

/-- The scan of a text goes on with `w` in the open word and gives the tokens `ts` after it. -/
structure Cut (literal : Nat) (cs w : List Char) (ts : List Token) : Prop where
  scan : ∀ current, scan literal current cs = withWord (w.reverse ++ current) ts
  taken : ∃ more, w = cs.take literal ++ more
  word : CoherentWord ts literal w
  rest : Coherent ts
  unclosed : ∀ q escaped, isQuote q = true → closer? q escaped cs = none →
    closer? q escaped w = none ∧ Unclosed q ts

theorem Cut.nil : Cut 0 [] [] [] where
  scan _ := rfl
  taken := ⟨[], rfl⟩
  word := rfl
  rest := trivial
  unclosed _ _ _ _ := ⟨rfl, fun _ h => absurd h List.not_mem_nil⟩

theorem Cut.unclosed_cons {literal : Nat} {c : Char} {cs w : List Char} {ts : List Token}
    (h : Cut literal cs w ts) (q : Char) (escaped : Bool) (hq : isQuote q = true)
    (hnone : closer? q escaped (c :: cs) = none) :
    closer? q escaped (c :: w) = none ∧ Unclosed q ts := by
  rw [closer?_cons_eq_none] at hnone ⊢
  obtain ⟨hw, hts⟩ := h.unclosed q _ hq hnone.2
  exact ⟨⟨hnone.1, hw⟩, hts⟩

theorem Cut.inside {k : Nat} {cs w : List Char} {ts : List Token} (h : Cut k cs w ts) (c : Char) :
    Cut (k + 1) (c :: cs) (c :: w) ts where
  scan current := by
    rw [Token.scan, h.scan, List.reverse_cons, List.append_assoc]
    rfl
  taken := by
    obtain ⟨more, rfl⟩ := h.taken
    exact ⟨more, rfl⟩
  word := h.word
  rest := h.rest
  unclosed := h.unclosed_cons

theorem Cut.delimiter {c : Char} {cs w : List Char} {ts : List Token} (h : Cut 0 cs w ts)
    (hc : isDelimiter c = true) : Cut 0 (c :: cs) [] (mark c ++ withWord w.reverse ts) where
  scan current := by
    rw [scan_delimiter hc, h.scan, List.append_nil]
    rfl
  taken := ⟨[], rfl⟩
  word := rfl
  rest := coherent_mark_append.mpr (coherent_withWord h.word h.rest)
  unclosed q escaped hq hnone := by
    -- whatever was protected before the delimiter, nothing is after it
    rw [closer?_delimiter hq hc, Option.map_eq_none_iff] at hnone
    obtain ⟨hw, hts⟩ := h.unclosed q false hq hnone
    exact ⟨rfl, unclosed_mark_append (unclosed_withWord hw hts)⟩

theorem Cut.other {c : Char} {cs w : List Char} {ts : List Token} (hc : isDelimiter c = false)
    (h : Cut (if isQuote c then (literalLength? c cs).getD 0 else 0) cs w ts) :
    Cut 0 (c :: cs) (c :: w) ts where
  scan current := by
    rw [scan_other hc, h.scan, List.reverse_cons, List.append_assoc]
    rfl
  taken := ⟨c :: w, rfl⟩
  word := by
    -- the quote finds the same closer in its word as in the whole text
    have hlength : isQuote c = true → literalLength? c w = literalLength? c cs := by
      intro hq
      have hlit := h.taken
      rw [if_pos hq] at hlit
      simp only [literalLength?_eq_closer?] at hlit ⊢
      cases hn : closer? c false cs with
      | none => exact (h.unclosed c false hq hn).1
      | some n =>
        rw [hn] at hlit
        obtain ⟨more, rfl⟩ := hlit
        exact closer?_take_append hn more
    refine ⟨hc, ?_, ?_⟩
    · intro hq hnone
      rw [hlength hq, literalLength?_eq_closer?] at hnone
      exact (h.unclosed c false hq hnone).2
    · have hword := h.word
      by_cases hq : isQuote c = true
      · rwa [hlength hq]
      · rwa [if_neg hq] at hword ⊢
  rest := h.rest
  unclosed := h.unclosed_cons

theorem exists_cut (literal : Nat) (cs : List Char) (hl : literal ≤ cs.length) :
    ∃ w ts, Cut literal cs w ts := by
  induction cs generalizing literal with
  | nil =>
    have h0 : literal = 0 := Nat.le_zero.mp hl
    exact ⟨[], [], h0 ▸ Cut.nil⟩
  | cons c cs ih =>
    cases literal with
    | succ k =>
      obtain ⟨w, ts, h⟩ := ih k (Nat.le_of_succ_le_succ hl)
      exact ⟨c :: w, ts, h.inside c⟩
    | zero =>
      -- outside of literals a delimiter starts over, and any other character may open a literal
      by_cases hc : isDelimiter c = true
      · obtain ⟨w, ts, h⟩ := ih 0 (Nat.zero_le _)
        exact ⟨[], _, h.delimiter hc⟩
      · have hn : (if isQuote c then (literalLength? c cs).getD 0 else 0) ≤ cs.length := by
          split
          · cases hlen : literalLength? c cs with
            | none => exact Nat.zero_le _
            | some n => exact closer?_le (literalLength?_eq_closer? c cs ▸ hlen)
          · exact Nat.zero_le _
        obtain ⟨w, ts, h⟩ := ih _ hn
        exact ⟨c :: w, ts, h.other (Bool.eq_false_iff.mpr hc)⟩

end Token

/-- The tokens of a text are coherent. -/
theorem tokenize_coherent (text : String) : Token.Coherent (tokenize text) := by
  obtain ⟨w, ts, h⟩ := Token.exists_cut 0 text.toList (Nat.zero_le _)
  rw [tokenize, h.scan, List.append_nil]
  exact Token.coherent_withWord h.word h.rest

namespace Token
open Text

/-- A text that has the tokens one after another: words in full and delimiters that stand for
themselves, with at least one between two words. -/
inductive Layout : List Token → List Char → Prop where
  | nil : Layout [] []
  | delimiter {c : Char} {ts : List Token} {cs : List Char} (hc : isDelimiter c = true) :
      Layout ts cs → Layout (mark c ++ ts) (c :: cs)
  | word (w : String) {ts : List Token} {cs : List Char} (hd : Delimited cs) :
      Layout ts cs → Layout (.word w :: ts) (w.toList ++ cs)

/-- Where no word closes a literal, no text that lays the words out does. -/
theorem Layout.unclosed {q : Char} {ts : List Token} {cs : List Char} (hq : isQuote q = true)
    (h : Layout ts cs) (hts : Unclosed q ts) : closer? q false cs = none := by
  induction h with
  | nil => rfl
  | delimiter hc _ ih =>
    rw [closer?_delimiter hq hc, ih fun w hw => hts w (List.mem_append_right _ hw)]
    rfl
  | word w hd _ ih =>
    have hrest := ih fun v hv => hts v (List.mem_cons_of_mem _ hv)
    exact closer?_append_eq_none (hts w List.mem_cons_self) (closer?_delimited hq hd hrest)

/-- A coherent word is scanned as a whole. -/
theorem CoherentWord.scan {ts : List Token} {literal : Nat} {w : List Char}
    (hw : CoherentWord ts literal w) {cs : List Char} (h : Layout ts cs) (hd : Delimited cs)
    (current : List Char) :
    Token.scan literal current (w ++ cs) = withWord (w.reverse ++ current) (Token.scan 0 [] cs) := by
  induction w generalizing literal current with
  | nil =>
    cases hw
    -- the word has ended, and what follows ends it in the text too
    cases cs with
    | nil => rfl
    | cons c cs =>
      have hc := hd c rfl
      rw [List.nil_append, scan_delimiter hc, scan_delimiter hc]
      rfl
  | cons c w ih =>
    cases literal with
    | succ k =>
      rw [List.cons_append, Token.scan, ih hw, List.reverse_cons, List.append_assoc]
      rfl
    | zero =>
      obtain ⟨hc, hstray, hrest⟩ := hw
      -- what follows the word changes nothing for a quote in it
      have hlength : isQuote c = true → literalLength? c (w ++ cs) = literalLength? c w := by
        intro hq
        have hnone := hstray hq
        simp only [literalLength?_eq_closer?] at hnone ⊢
        cases hn : closer? c false w with
        | none =>
          have hcs := h.unclosed hq (hnone hn)
          exact closer?_append_eq_none hn (closer?_delimited hq hd hcs)
        | some n => exact closer?_append hn cs
      have hlit : (if isQuote c then (literalLength? c (w ++ cs)).getD 0 else 0) =
          if isQuote c then (literalLength? c w).getD 0 else 0 := by
        split
        · next hq => rw [hlength hq]
        · rfl
      rw [List.cons_append, scan_other hc, hlit, ih hrest, List.reverse_cons, List.append_assoc]
      rfl

/-- Coherent tokens come back from every text that lays them out. -/
theorem Layout.scan {ts : List Token} {cs : List Char} (h : Layout ts cs) (hts : Coherent ts) :
    Token.scan 0 [] cs = ts := by
  induction h with
  | nil => rfl
  | @delimiter c ts cs hc _ ih =>
    rw [scan_delimiter hc, ih (coherent_mark_append.mp hts)]
    rfl
  | @word w ts cs hd hl ih =>
    obtain ⟨hne, hw, hrest⟩ := hts
    rw [hw.scan hl hd, ih hrest, List.append_nil]
    cases hcs : w.toList with
    | nil => exact absurd (String.toList_eq_nil_iff.mp hcs) hne
    | cons c w' => rw [withWord_reverse_cons, ← hcs, String.ofList_toList]

end Token

end SmallScheme
