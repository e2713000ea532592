import Mathlib.Data.List.TakeWhile
import SmallScheme.Text.Forms
import SmallScheme.Proofs.Reading

/-! The two readers of program text agree: cutting a text into forms and reading each of them gives
what reading the whole text gives.

Where nothing is protected by a backslash and every quote is closed, the lexer need not look ahead:
it can go by the quote that is open, as the cutting of forms does. The two then go through the text
side by side, one with the characters since the last form and the other with the open lists. -/
namespace SmallScheme

namespace Text

/-- The quote that is open after a character. -/
def nextQuote (quote : Option Char) (c : Char) : Option Char :=
  if isQuote c then FormScan.toggle quote c else quote

/-- The quote that is open after a text. -/
def quoteAfter (quote : Option Char) (cs : List Char) : Option Char := cs.foldl nextQuote quote

theorem isQuote_of_isDelimiter {c : Char} (h : isDelimiter c = true) : isQuote c = false := by
  refine Bool.eq_false_iff.mpr fun hq => ?_
  rw [isDelimiter_of_isQuote hq] at h
  cases h

theorem nextQuote_of_isDelimiter {c : Char} (h : isDelimiter c = true) (quote : Option Char) :
    nextQuote quote c = quote := by
  rw [nextQuote, isQuote_of_isDelimiter h, if_neg Bool.false_ne_true]

theorem nextQuote_open {q c : Char} (hc : q ≠ c) :
    nextQuote (some q) c = some q := by
  unfold nextQuote FormScan.toggle
  split
  · exact if_neg hc
  · rfl

theorem nextQuote_close {q : Char} (hq : isQuote q = true) : nextQuote (some q) q = none := by
  unfold nextQuote FormScan.toggle
  rw [if_pos hq]
  exact if_pos rfl

theorem isQuote_of_mem_nextQuote {quote : Option Char} {c : Char}
    (h : ∀ q ∈ quote, isQuote q = true) : ∀ q ∈ nextQuote quote c, isQuote q = true := by
  intro q hq
  unfold nextQuote at hq
  split at hq
  · next hc =>
    unfold FormScan.toggle at hq
    split at hq
    · cases hq
      exact hc
    · split at hq
      · cases hq
      · exact h q hq
  · exact h q hq

/-- Where nothing is protected, a quote that is closed in the end is found by looking ahead. -/
theorem exists_closer {q : Char} {cs : List Char} (hq : isQuote q = true) (hb : '\\' ∉ cs)
    (h : quoteAfter (some q) cs = none) : ∃ n, closer? q false cs = some n := by
  induction cs with
  | nil => cases h
  | cons c cs ih =>
    have hcb : c ≠ '\\' := Ne.symm (List.ne_of_not_mem_cons hb)
    by_cases hc : q = c
    · exact ⟨1, hc ▸ closer?_self hq cs⟩
    · rw [quoteAfter, List.foldl_cons, nextQuote_open hc] at h
      obtain ⟨n, hn⟩ := ih (List.not_mem_of_not_mem_cons hb) h
      exact ⟨n + 1, by rw [closer?_other hcb hc, hn]; rfl⟩

end Text

namespace Token
open Text

/-- Scans a text by the quote that is open. -/
def toggleScan (quote : Option Char) (current : List Char) : List Char → List Token
  | [] => withWord current []
  | c :: cs =>
    if quote.isNone && isDelimiter c then withWord current (mark c ++ toggleScan none [] cs)
    else toggleScan (nextQuote quote c) (c :: current) cs

theorem toggleScan_delimiter {c : Char} (hc : isDelimiter c = true) (current cs : List Char) :
    toggleScan none current (c :: cs) = withWord current (mark c ++ toggleScan none [] cs) := by
  rw [toggleScan, hc]
  rfl

theorem toggleScan_other {quote : Option Char} {c : Char}
    (h : quote.isSome = true ∨ isDelimiter c = false) (current cs : List Char) :
    toggleScan quote current (c :: cs) = toggleScan (nextQuote quote c) (c :: current) cs := by
  rw [toggleScan, if_neg]
  rcases h with h | h
  · cases quote with
    | none => cases h
    | some q => exact Bool.false_ne_true
  · rw [h, Bool.and_false]
    exact Bool.false_ne_true

/-- The characters that still belong to the literal that is open. -/
def pending (quote : Option Char) (cs : List Char) : Nat :=
  quote.elim 0 fun q => (literalLength? q cs).getD 0

theorem scan_pending_outside {c : Char} (hc : isDelimiter c = false) (current cs : List Char) :
    scan (pending none (c :: cs)) current (c :: cs) =
      scan (pending (nextQuote none c) cs) (c :: current) cs := by
  change scan 0 current (c :: cs) = _
  rw [scan_other hc]
  unfold nextQuote
  split <;> rfl

theorem scan_pending_inside {q c : Char} {cs : List Char} (hq : isQuote q = true) (hb : '\\' ∉ c :: cs)
    (hend : quoteAfter (nextQuote (some q) c) cs = none) (current : List Char) :
    scan (pending (some q) (c :: cs)) current (c :: cs) =
      scan (pending (nextQuote (some q) c) cs) (c :: current) cs := by
  have hcb : c ≠ '\\' := Ne.symm (List.ne_of_not_mem_cons hb)
  change scan ((literalLength? q (c :: cs)).getD 0) current (c :: cs) = _
  rw [literalLength?_eq_closer?]
  by_cases hc : q = c
  · subst hc
    rw [closer?_self hq, nextQuote_close hq]
    rfl
  · rw [nextQuote_open hc] at hend ⊢
    obtain ⟨n, hn⟩ := exists_closer hq (List.not_mem_of_not_mem_cons hb) hend
    change _ = scan ((literalLength? q cs).getD 0) (c :: current) cs
    rw [closer?_other hcb hc, literalLength?_eq_closer?, hn]
    rfl

/-- Where nothing is protected and every quote is closed, looking ahead finds what is open. -/
theorem scan_eq_toggleScan (quote : Option Char) {cs : List Char}
    (hq : ∀ q ∈ quote, isQuote q = true) (hb : '\\' ∉ cs) (hend : quoteAfter quote cs = none)
    (current : List Char) : scan (pending quote cs) current cs = toggleScan quote current cs := by
  induction cs generalizing quote current with
  | nil =>
    cases quote with
    | none => rfl
    | some q => cases hend
  | cons c cs ih =>
    have hb' := List.not_mem_of_not_mem_cons hb
    have hrest := ih (nextQuote quote c) (isQuote_of_mem_nextQuote hq) hb' hend
    cases quote with
    | none =>
      by_cases hc : isDelimiter c = true
      · rw [nextQuote_of_isDelimiter hc] at hrest
        rw [toggleScan_delimiter hc, ← hrest []]
        exact scan_delimiter hc current cs
      · have hc' := Bool.eq_false_iff.mpr hc
        rw [toggleScan_other (Or.inr hc'), ← hrest, scan_pending_outside hc']
    | some q =>
      rw [toggleScan_other (Or.inl rfl), ← hrest]
      exact scan_pending_inside (hq q rfl) hb hend current

theorem tokenize_eq_toggleScan {cs : List Char} (hb : '\\' ∉ cs) (hend : quoteAfter none cs = none) :
    tokenize (String.ofList cs) = toggleScan none [] cs := by
  rw [tokenize, String.toList_ofList]
  exact scan_eq_toggleScan none (fun q hq => absurd hq (Option.not_mem_none q)) hb hend []

end Token

namespace Token

/-- Read inside `depth` open lists, the tokens close no list that is not open. -/
def Balanced : (depth : Nat) → List Token → Prop
  | _, [] => True
  | depth, .lparen :: ts => Balanced (depth + 1) ts
  | depth, .rparen :: ts => 0 < depth ∧ Balanced (depth - 1) ts
  | depth, .word _ :: ts => Balanced depth ts

theorem balanced_withWord {depth : Nat} {current : List Char} {ts : List Token} :
    Balanced depth (withWord current ts) ↔ Balanced depth ts := by
  unfold withWord
  split <;> rfl

/-- Tokens are balanced if no prefix of them has more closing parentheses than opening ones. -/
theorem balanced_of_count {depth : Nat} {ts : List Token}
    (h : ∀ front, front <+: ts → front.count .rparen ≤ depth + front.count .lparen) :
    Balanced depth ts := by
  induction ts generalizing depth with
  | nil => trivial
  | cons t ts ih =>
    have hstep (front : List Token) (hf : front <+: ts) :
        (t :: front).count .rparen ≤ depth + (t :: front).count .lparen :=
      h (t :: front) (List.cons_prefix_cons.mpr ⟨rfl, hf⟩)
    cases t with
    | lparen =>
      refine ih fun front hf => ?_
      have := hstep front hf
      simp only [List.count_cons_self, List.count_cons_of_ne (by decide : Token.lparen ≠ .rparen)] at this
      omega
    | rparen =>
      have hnow := hstep [] List.nil_prefix
      simp at hnow
      refine ⟨hnow, ih fun front hf => ?_⟩
      have := hstep front hf
      simp only [List.count_cons_self, List.count_cons_of_ne (by decide : Token.rparen ≠ .lparen)] at this
      omega
    | word w =>
      refine ih fun front hf => ?_
      have := hstep front hf
      simpa using this

end Token

namespace Datum
open Token

/-- The items of an open list after a word, given in reverse, has ended. -/
def withBare (current : List Char) (items : List Datum) : List Datum :=
  if current.isEmpty then items else ofWord (String.ofList current.reverse) :: items

theorem readIn_withWord (current : List Char) (items : List Datum) (outer : List (List Datum))
    (ts : List Token) :
    readIn (items :: outer) (withWord current ts) = readIn (withBare current items :: outer) ts := by
  unfold withWord withBare
  split <;> rfl

/-- Balanced tokens can only end too early. -/
theorem readIn_balanced (stack : List (List Datum)) {ts : List Token} (h : Balanced stack.length ts) :
    (readIn stack ts = (.error .unexpectedEnd, [])) ∨
      ∃ d rest, readIn stack ts = (.ok d, rest) ∧ Balanced 0 rest := by
  induction ts generalizing stack with
  | nil => exact Or.inl rfl
  | cons t ts ih =>
    cases t with
    | lparen => exact ih ([] :: stack) h
    | rparen =>
      rcases stack with _ | ⟨items, _ | ⟨outer, stack⟩⟩
      · exact absurd h.1 (Nat.lt_irrefl 0)
      · exact Or.inr ⟨_, ts, rfl, h.2⟩
      · exact ih ((list items.reverse :: outer) :: stack) h.2
    | word w =>
      rcases stack with _ | ⟨items, stack⟩
      · exact Or.inr ⟨_, ts, rfl, h⟩
      · exact ih ((ofWord w :: items) :: stack) h

end Datum

namespace Program
open Token

/-- The forms that are read when some lists are open. -/
def resume (stack : List (List Datum)) (ts : List Token) : List Datum :=
  match Datum.readIn stack ts with
  | (.ok form, rest) => form :: (ofTokens rest).forms
  | (.error _, _) => []

theorem resume_nil (ts : List Token) : resume [] ts = (ofTokens ts).forms := by
  by_cases h : ts = []
  · subst h
    rw [ofTokens]
    rfl
  · rw [ofTokens, dif_neg h, resume, ← Datum.read]
    dsimp only
    rcases Datum.read ts with ⟨fault | form, rest⟩
    · rfl
    · rfl

theorem resume_congr {stack stack' : List (List Datum)} {ts ts' : List Token}
    (h : Datum.readIn stack ts = Datum.readIn stack' ts') : resume stack ts = resume stack' ts' := by
  rw [resume, h, resume]

theorem resume_withWord (current : List Char) (ts : List Token) :
    resume [] (withWord current ts) = Datum.withBare current [] ++ resume [] ts := by
  unfold withWord Datum.withBare
  split
  · rfl
  · rw [resume_nil ts]
    rfl

/-- Balanced tokens are read to their end, or to an end that comes too early. -/
theorem fault_balanced {ts : List Token} (h : Balanced 0 ts) :
    (ofTokens ts).fault? = none ∨ (ofTokens ts).fault? = some .unexpectedEnd := by
  fun_induction ofTokens ts with
  | case1 => exact Or.inl rfl
  | case2 ts hts fault hread =>
    rcases Datum.readIn_balanced [] h with hend | ⟨d, rest, hok, _⟩
    · rw [Datum.read, hend] at hread
      cases hread
      exact Or.inr rfl
    · rw [Datum.read, hok] at hread
      cases hread
  | case3 ts hts form hread hlt rest ih =>
    rcases Datum.readIn_balanced [] h with hend | ⟨d, rest', hok, hbal⟩
    · rw [Datum.read, hend] at hread
      cases hread
    · refine ih ?_
      rw [Datum.read, hok]
      exact hbal

end Program

namespace Text
open Token

theorem quoteAfter_append (quote : Option Char) (cs ds : List Char) :
    quoteAfter quote (cs ++ ds) = quoteAfter (quoteAfter quote cs) ds := List.foldl_append

theorem isBlank_of_not_isDelimiter {c : Char} (h : isDelimiter c = false) : isBlank c = false :=
  (Bool.or_eq_false_iff.mp h).2

/-- A character that ends a literal or belongs to a word is not blank. -/
theorem isBlank_of_nextQuote {quote : Option Char} {c : Char}
    (hc : quote.isSome = true ∨ isDelimiter c = false) (h : nextQuote quote c = none) :
    isBlank c = false := by
  refine isBlank_of_not_isDelimiter ?_
  rcases hc with hopen | hc
  · refine isDelimiter_of_isQuote (eq_true_of_ne_false fun hno => ?_)
    rw [nextQuote, hno, if_neg Bool.false_ne_true] at h
    rw [h] at hopen
    cases hopen
  · exact hc

theorem ne_backslash_of_isDelimiter {c : Char} (h : isDelimiter c = true) : c ≠ '\\' := by
  rintro rfl
  cases h

theorem dropWhile_isBlank {cs : List Char} (h : ∀ c ∈ cs.head?, isBlank c = false) :
    cs.dropWhile isBlank = cs := by
  cases cs with
  | nil => rfl
  | cons c cs => rw [List.dropWhile_cons, h c rfl, if_neg Bool.false_ne_true]

theorem trim_eq_self {cs : List Char} (hfirst : ∀ c ∈ cs.head?, isBlank c = false)
    (hlast : ∀ c ∈ cs.getLast?, isBlank c = false) : trim cs = cs := by
  unfold trim
  rw [dropWhile_isBlank hfirst, dropWhile_isBlank, List.reverse_reverse]
  rwa [List.head?_reverse]

/-- Trimming takes blanks away from the ends. -/
theorem exists_trim (cs : List Char) : ∃ lead trail, cs = lead ++ trim cs ++ trail ∧
    (∀ c ∈ lead, isBlank c = true) ∧ ∀ c ∈ trail, isBlank c = true := by
  have hlead := List.takeWhile_append_dropWhile (p := isBlank) (l := cs)
  have htrail := List.takeWhile_append_dropWhile (p := isBlank)
    (l := (cs.dropWhile isBlank).reverse)
  refine ⟨cs.takeWhile isBlank, ((cs.dropWhile isBlank).reverse.takeWhile isBlank).reverse, ?_, ?_, ?_⟩
  · rw [trim, List.append_assoc, ← List.reverse_append, htrail, List.reverse_reverse, hlead]
  · exact fun c hc => List.mem_takeWhile_imp hc
  · exact fun c hc => List.mem_takeWhile_imp (List.mem_reverse.mp hc)

theorem trim_ne_nil {c : Char} {cs : List Char} (hmem : c ∈ cs) (hc : isBlank c = false) :
    trim cs ≠ [] := by
  intro hnil
  obtain ⟨lead, trail, hcs, hlead, htrail⟩ := exists_trim cs
  rw [hnil, List.append_nil] at hcs
  rw [hcs] at hmem
  have hblank : isBlank c = true := by
    rcases List.mem_append.mp hmem with hm | hm
    · exact hlead c hm
    · exact htrail c hm
  rw [hc] at hblank
  cases hblank

namespace FormScan
variable {s : FormScan} {c : Char}

/-- A character that is protected by nothing goes on with a literal or a word. -/
theorem step_other (hp : s.previous ≠ some '\\') (h : s.quote.isSome = true ∨ isDelimiter c = false) :
    s.step c = ([], { s with
      current := c :: s.current, quote := nextQuote s.quote c, previous := some c }) := by
  have hprev : (s.previous != some '\\') = true := bne_iff_ne.mpr hp
  unfold step nextQuote
  rw [hprev, Bool.and_true]
  split
  · rfl
  split
  · rfl
  · next hquote hopen =>
    have hd := h.resolve_left hopen
    simp only [isDelimiter, Bool.or_eq_false_iff, decide_eq_false_iff_not] at hd
    obtain ⟨⟨h1, h2⟩, hb⟩ := hd
    rw [if_neg h1, if_neg h2, hb, Bool.and_false, if_neg Bool.false_ne_true]

/-- The forms that a text ends with are read on their own. -/
def readForm (form : List Char) : Except SyntaxFault (List Datum) :=
  (Program.ofText (String.ofList form)).complete

theorem readForm_eq {form : List Char} {d : Datum} (hb : '\\' ∉ form)
    (hq : quoteAfter none form = none)
    (h : Datum.readIn [] (toggleScan none [] form) = (.ok d, [])) : readForm form = .ok [d] := by
  have hscan := tokenize_eq_toggleScan hb hq
  have hne : toggleScan none [] form ≠ [] := by
    intro hnil
    rw [hnil] at h
    cases h
  rw [readForm, Program.ofText, hscan, Program.ofTokens, dif_neg hne]
  simp only [Datum.read, h]
  rw [Program.ofTokens]
  rfl

theorem finish_eq {current : List Char} (hne : current ≠ [])
    (hfirst : ∀ c ∈ current.getLast?, isBlank c = false)
    (hlast : ∀ c ∈ current.head?, isBlank c = false) : finish current = [current.reverse] := by
  have htrim : trim current.reverse = current.reverse := by
    refine trim_eq_self ?_ ?_
    · rwa [List.head?_reverse]
    · rwa [List.getLast?_reverse]
  unfold finish
  rw [htrim]
  simp [hne]

/-- A blank after a form is not part of it. -/
theorem finish_cons_blank {current : List Char} (hc : isBlank c = true)
    (hfirst : ∀ c ∈ current.getLast?, isBlank c = false)
    (hlast : ∀ c ∈ current.head?, isBlank c = false) : finish (c :: current) = finish current := by
  have htrim : trim (c :: current).reverse = trim current.reverse := by
    cases current with
    | nil => simp [trim, hc]
    | cons d current =>
      have hself : trim (d :: current).reverse = (d :: current).reverse := by
        refine trim_eq_self ?_ ?_
        · rwa [List.head?_reverse]
        · rwa [List.getLast?_reverse]
      have hhead : ∀ e ∈ (c :: d :: current).reverse.head?, isBlank e = false := by
        rw [List.head?_reverse, List.getLast?_cons_cons]
        exact hfirst
      rw [hself]
      unfold trim
      rw [dropWhile_isBlank hhead, List.reverse_reverse, List.dropWhile_cons, hc, if_pos rfl,
        dropWhile_isBlank hlast]
  unfold finish
  rw [htrim]

/-- The scan for forms has come as far as the reader: the characters since the last form are read into
the open word and the open lists. -/
structure Lockstep (s : FormScan) (word : List Char) (stack : List (List Datum)) : Prop where
  depth : s.depth = stack.length
  bare : stack = [] → s.current = word
  opened : stack ≠ [] → s.current ≠ []
  reads : ∀ rest, Datum.readIn [] (toggleScan none [] (s.current.reverse ++ rest)) =
    Datum.readIn stack (toggleScan s.quote word rest)
  quote : quoteAfter none s.current.reverse = s.quote
  unprotected : '\\' ∉ s.current
  previous : s.previous ≠ some '\\'
  first : ∀ c ∈ s.current.getLast?, isBlank c = false
  last : s.quote = none → ∀ c ∈ word.head?, isBlank c = false

namespace Lockstep
variable {word : List Char} {items : List Datum} {outer stack : List (List Datum)}

/-- Between forms nothing is open. -/
theorem fresh (previous : Option Char) (hp : previous ≠ some '\\') :
    Lockstep ⟨[], 0, none, previous⟩ [] [] where
  depth := rfl
  bare _ := rfl
  opened h := absurd rfl h
  reads _ := rfl
  quote := rfl
  unprotected := List.not_mem_nil
  previous := hp
  first := nofun
  last _ := nofun

theorem opening (previous : Option Char) (hp : previous ≠ some '\\') :
    Lockstep ⟨['('], 1, none, previous⟩ [] [[]] where
  depth := rfl
  bare h := by cases h
  opened _ := List.cons_ne_nil _ _
  reads _ := rfl
  quote := rfl
  unprotected := (by decide : '\\' ∉ ['('])
  previous := hp
  first := by simp; decide
  last _ := nofun

/-- Inside of literals and words both go on with the word. -/
theorem other (h : Lockstep s word stack) (hcb : c ≠ '\\')
    (hc : s.quote.isSome = true ∨ isDelimiter c = false) :
    Lockstep { s with current := c :: s.current, quote := nextQuote s.quote c, previous := some c }
      (c :: word) stack where
  depth := h.depth
  bare hs := by rw [h.bare hs]
  opened _ := List.cons_ne_nil _ _
  reads rest := by
    rw [List.reverse_cons, List.append_assoc, List.singleton_append, h.reads, toggleScan_other hc]
  quote := by
    rw [List.reverse_cons, quoteAfter_append, h.quote]
    rfl
  unprotected := List.not_mem_cons_of_ne_of_not_mem (Ne.symm hcb) h.unprotected
  previous := by
    intro hp
    exact hcb (Option.some.inj hp)
  first := by
    have hfirst := h.first
    cases hcur : s.current with
    | nil =>
      -- a form starts outside of literals
      have hnone : s.quote = none := by
        rw [← h.quote, hcur]
        rfl
      rw [hnone] at hc
      intro d hd
      cases hd
      exact isBlank_of_not_isDelimiter (hc.resolve_left Bool.false_ne_true)
    | cons d current =>
      rw [hcur] at hfirst
      rwa [List.getLast?_cons_cons]
  last hnone := by
    intro d hd
    cases hd
    exact isBlank_of_nextQuote hc hnone

/-- A delimiter inside of lists ends the word and stays in the form. -/
theorem inside (h : Lockstep s word (items :: outer)) (hq : s.quote = none)
    (hc : isDelimiter c = true) {depth : Int} (hd : depth = stack.length) (hs : stack ≠ [])
    (hreads : ∀ rest, Datum.readIn (items :: outer) (withWord word (mark c ++ rest)) =
      Datum.readIn stack rest) :
    Lockstep { s with current := c :: s.current, depth, previous := some c } [] stack where
  depth := hd
  bare hnil := absurd hnil hs
  opened _ := List.cons_ne_nil _ _
  reads rest := by
    rw [List.reverse_cons, List.append_assoc, List.singleton_append, h.reads, hq,
      toggleScan_delimiter hc, hreads]
  quote := by
    rw [List.reverse_cons, quoteAfter_append, h.quote]
    exact nextQuote_of_isDelimiter hc s.quote
  unprotected :=
    List.not_mem_cons_of_ne_of_not_mem (Ne.symm (ne_backslash_of_isDelimiter hc)) h.unprotected
  previous := by
    intro hp
    exact ne_backslash_of_isDelimiter hc (Option.some.inj hp)
  first := by
    have hfirst := h.first
    cases hcur : s.current with
    | nil => exact absurd hcur (h.opened (List.cons_ne_nil _ _))
    | cons d current =>
      rw [hcur] at hfirst
      rwa [List.getLast?_cons_cons]
  last _ := nofun

/-- A bare word is a form of its own. -/
theorem finish_bare (h : Lockstep s word []) (hq : s.quote = none) :
    (finish word).map readForm = (Datum.withBare word []).map fun d => .ok [d] := by
  by_cases hne : word = []
  · rw [hne]
    rfl
  · have hword := h.bare rfl
    have hread : readForm word.reverse = .ok [Datum.ofWord (String.ofList word.reverse)] := by
      refine readForm_eq ?_ ?_ ?_
      · rw [List.mem_reverse, ← hword]
        exact h.unprotected
      · rw [← hword, h.quote, hq]
      · have hreads := h.reads []
        rw [List.append_nil, hword, hq] at hreads
        rw [hreads, toggleScan, withWord, List.isEmpty_eq_false_iff.mpr hne,
          if_neg Bool.false_ne_true]
        rfl
    rw [finish_eq hne (hword ▸ h.first) (h.last hq), Datum.withBare,
      List.isEmpty_eq_false_iff.mpr hne, if_neg Bool.false_ne_true, List.map_singleton,
      List.map_singleton, hread]

/-- The parenthesis that closes the last list ends a form. -/
theorem finish_close (h : Lockstep s word [items]) (hq : s.quote = none) :
    (finish (')' :: s.current)).map readForm =
      [.ok [.list (Datum.withBare word items).reverse]] := by
  have hclose : isDelimiter ')' = true := by decide
  have hne : s.current ≠ [] := h.opened (List.cons_ne_nil _ _)
  have hfinish : finish (')' :: s.current) = [(')' :: s.current).reverse] := by
    refine finish_eq (List.cons_ne_nil _ _) ?_ ?_
    · obtain ⟨d, current, hcur⟩ := List.exists_cons_of_ne_nil hne
      have hfirst := h.first
      rw [hcur] at hfirst ⊢
      rwa [List.getLast?_cons_cons]
    · intro d hd
      cases hd
      decide
  have hread : readForm (')' :: s.current).reverse =
      .ok [.list (Datum.withBare word items).reverse] := by
    refine readForm_eq ?_ ?_ ?_
    · rw [List.mem_reverse]
      exact List.not_mem_cons_of_ne_of_not_mem (by decide) h.unprotected
    · rw [List.reverse_cons, quoteAfter_append, h.quote, hq]
      rfl
    · rw [List.reverse_cons, h.reads, hq, toggleScan_delimiter hclose, Datum.readIn_withWord]
      rfl
  rw [hfinish, List.map_singleton, hread]

end Lockstep

/-- From wherever both have come to, the forms that are cut from a text and read are those that are
read on. -/
def Agrees (cs : List Char) : Prop :=
  ∀ (s : FormScan) (word : List Char) (stack : List (List Datum)), Lockstep s word stack →
    quoteAfter s.quote cs = none → Balanced stack.length (toggleScan s.quote word cs) →
      (s.forms cs).map readForm =
        (Program.resume stack (toggleScan s.quote word cs)).map fun d => .ok [d]

theorem agrees_nil : Agrees [] := by
  intro s word stack h hend _
  have hq : s.quote = none := hend
  rw [forms, toggleScan]
  cases stack with
  | nil =>
    have hd : s.depth = 0 := h.depth
    rw [if_pos hd, h.bare rfl, h.finish_bare hq, Program.resume_withWord, Program.resume_nil,
      Program.ofTokens]
    simp
  | cons items outer =>
    -- an unbalanced tail is dropped by the one and ends too early for the other
    have hd : s.depth ≠ 0 := by
      rw [h.depth, List.length_cons]
      omega
    rw [if_neg hd, Program.resume, Datum.readIn_withWord]
    rfl

section
variable {word : List Char} {cs : List Char} (ih : Agrees cs) (hend : quoteAfter none cs = none)
include ih hend

/-- Outside of lists a delimiter ends a bare word. -/
theorem agrees_delimiter_bare (h : Lockstep s word []) (hq : s.quote = none)
    (hc : isDelimiter c = true) (hbal : Balanced 0 (mark c ++ toggleScan none [] cs)) :
    ((s.step c).1 ++ (s.step c).2.forms cs).map readForm =
      (Program.resume [] (withWord word (mark c ++ toggleScan none [] cs))).map fun d => .ok [d] := by
  have hdepth : s.depth = 0 := h.depth
  have hbare := h.bare rfl
  rw [List.map_append, Program.resume_withWord, List.map_append, ← h.finish_bare hq]
  by_cases hopen : c = '('
  · subst hopen
    have hstep : s.step '(' = (finish s.current, ⟨['('], 1, none, some '('⟩) := by
      simp [step, isQuote, hq, hdepth]
    rw [hstep, hbare]
    exact congrArg _ (ih _ [] [[]] (Lockstep.opening _ (by decide)) hend hbal)
  by_cases hclose : c = ')'
  · -- balanced tokens close nothing here
    subst hclose
    exact absurd hbal.1 (Nat.lt_irrefl 0)
  · have hb : isBlank c = true := by simpa [isDelimiter, hopen, hclose] using hc
    have hstep : s.step c = (finish (c :: s.current), ⟨[], 0, none, some c⟩) := by
      simp [step, isQuote_of_isDelimiter hc, hq, hdepth, hopen, hclose, hb]
    have hmark : mark c = [] := by simp [mark, hopen, hclose]
    rw [hmark] at hbal
    rw [hstep, hbare, finish_cons_blank hb (hbare ▸ h.first) (h.last hq), hmark]
    refine congrArg _ (ih _ [] [] (Lockstep.fresh _ ?_) hend hbal)
    exact fun hp => ne_backslash_of_isDelimiter hc (Option.some.inj hp)

/-- A delimiter that leaves some list open is part of the form. -/
theorem agrees_delimiter_stay {items : List Datum} {outer : List (List Datum)}
    (h : Lockstep s word (items :: outer)) (hq : s.quote = none) (hc : isDelimiter c = true)
    (stack : List (List Datum)) (hs : stack ≠ []) (depth : Int) (hd : depth = stack.length)
    (hstep : s.step c = ([], { s with current := c :: s.current, depth, previous := some c }))
    (hreads : ∀ rest, Datum.readIn (items :: outer) (withWord word (mark c ++ rest)) =
      Datum.readIn stack rest)
    (hbal : Balanced stack.length (toggleScan none [] cs)) :
    ((s.step c).1 ++ (s.step c).2.forms cs).map readForm =
      (Program.resume (items :: outer) (withWord word (mark c ++ toggleScan none [] cs))).map
        fun d => .ok [d] := by
  have hrest := ih _ [] stack (h.inside hq hc hd hs hreads)
  dsimp only at hrest
  rw [hstep, List.nil_append, Program.resume_congr (hreads _)]
  rw [hq] at hrest ⊢
  exact hrest hend hbal

/-- Inside of lists a delimiter opens a list, closes one or ends a word. -/
theorem agrees_delimiter_inside {items : List Datum} {outer : List (List Datum)}
    (h : Lockstep s word (items :: outer)) (hq : s.quote = none) (hc : isDelimiter c = true)
    (hbal : Balanced (outer.length + 1) (mark c ++ toggleScan none [] cs)) :
    ((s.step c).1 ++ (s.step c).2.forms cs).map readForm =
      (Program.resume (items :: outer) (withWord word (mark c ++ toggleScan none [] cs))).map
        fun d => .ok [d] := by
  have hdepth : s.depth = outer.length + 1 := h.depth
  have hne : s.depth ≠ 0 := by omega
  have hquote : isQuote c = false := isQuote_of_isDelimiter hc
  by_cases hopen : c = '('
  · subst hopen
    refine agrees_delimiter_stay ih hend h hq hc ([] :: Datum.withBare word items :: outer)
      (List.cons_ne_nil _ _) (s.depth + 1) ?_ ?_ ?_ hbal
    · simp only [List.length_cons]
      omega
    · simp [step, hquote, hq, hne]
    · intro rest
      rw [Datum.readIn_withWord]
      rfl
  by_cases hclose : c = ')'
  · subst hclose
    cases outer with
    | nil =>
      -- the last list closes, so the form is complete and both start afresh
      have hone : s.depth = 1 := hdepth
      have hstep : s.step ')' = (finish (')' :: s.current), ⟨[], 0, none, some ')'⟩) := by
        simp [step, hquote, hq, hone]
      have hrest := ih _ [] [] (Lockstep.fresh (some ')') (by decide)) hend hbal.2
      rw [hstep, List.map_append, h.finish_close hq, hrest, Program.resume_nil, Program.resume,
        Datum.readIn_withWord]
      rfl
    | cons items' outer =>
      -- an inner list closes and becomes an item of the next one
      have hone : s.depth ≠ 1 := by
        rw [hdepth, List.length_cons]
        omega
      refine agrees_delimiter_stay ih hend h hq hc
        ((.list (Datum.withBare word items).reverse :: items') :: outer)
        (List.cons_ne_nil _ _) (s.depth - 1) ?_ ?_ ?_ hbal.2
      · simp only [List.length_cons] at hdepth ⊢
        omega
      · simp [step, hquote, hq, hone]
      · intro rest
        rw [Datum.readIn_withWord]
        rfl
  · have hmark : mark c = [] := by simp [mark, hopen, hclose]
    rw [hmark, List.nil_append] at hbal
    refine agrees_delimiter_stay ih hend h hq hc (Datum.withBare word items :: outer)
      (List.cons_ne_nil _ _) s.depth hdepth ?_ ?_ hbal
    · simp [step, hquote, hq, hopen, hclose, hne]
    · intro rest
      rw [hmark]
      exact Datum.readIn_withWord word items outer rest

end

/-- Cutting and reading agree on every text in which nothing is protected. -/
theorem agrees {cs : List Char} (hb : '\\' ∉ cs) : Agrees cs := by
  induction cs with
  | nil => exact agrees_nil
  | cons c cs ih =>
    have hcb : c ≠ '\\' := Ne.symm (List.ne_of_not_mem_cons hb)
    have ih := ih (List.not_mem_of_not_mem_cons hb)
    intro s word stack h hend hbal
    rw [forms]
    -- both readers ask the same two questions: is a literal open, and is this a delimiter
    by_cases hc : s.quote.isSome = true ∨ isDelimiter c = false
    · rw [toggleScan_other hc] at hbal ⊢
      rw [step_other h.previous hc, List.nil_append]
      exact ih _ (c :: word) stack (h.other hcb hc) hend hbal
    · obtain ⟨hopen, hdelim⟩ := not_or.mp hc
      have hq : s.quote = none := Option.not_isSome_iff_eq_none.mp hopen
      have hd : isDelimiter c = true := eq_true_of_ne_false hdelim
      rw [hq] at hend hbal ⊢
      rw [quoteAfter, List.foldl_cons, nextQuote_of_isDelimiter hd] at hend
      rw [toggleScan_delimiter hd] at hbal ⊢
      rw [balanced_withWord] at hbal
      cases stack with
      | nil => exact agrees_delimiter_bare ih hend h hq hd hbal
      | cons items outer => exact agrees_delimiter_inside ih hend h hq hd hbal

theorem step_quote (hp : s.previous ≠ some '\\') : (s.step c).2.quote = nextQuote s.quote c := by
  have hprev : (s.previous != some '\\') = true := bne_iff_ne.mpr hp
  unfold step nextQuote
  rw [hprev, Bool.and_true]
  repeat' split
  all_goals rfl

theorem step_previous (s : FormScan) (c : Char) : (s.step c).2.previous = some c := by
  unfold step
  dsimp only
  repeat' split
  all_goals rfl

/-- Where nothing is protected, the scan has the quote open that is open after the text. -/
theorem quote_foldl {cs : List Char} (hp : s.previous ≠ some '\\') (hb : '\\' ∉ cs) :
    (cs.foldl (fun s c => (s.step c).2) s).quote = quoteAfter s.quote cs := by
  induction cs generalizing s with
  | nil => rfl
  | cons c cs ih =>
    have hcb : c ≠ '\\' := Ne.symm (List.ne_of_not_mem_cons hb)
    have hp' : (s.step c).2.previous ≠ some '\\' := by
      rw [step_previous]
      exact fun h => hcb (Option.some.inj h)
    rw [List.foldl_cons, ih hp' (List.not_mem_of_not_mem_cons hb), step_quote hp]
    rfl

end FormScan

end Text

/-- Cutting a text into forms agrees with reading it. Let `code` be the text without its comments, and
suppose that it has no backslash, that the scan for forms ends with no quote open, and that no prefix
of its tokens has more closing parentheses than opening ones. Then every form is read as exactly one
datum, and together these are the data that are read from the whole code before its tokens are used
up or end too early. -/
theorem splitting_agrees {text : String} {code : List Char}
    (hcode : code = Text.withoutComments text.toList) (hb : '\\' ∉ code)
    (hquote : (code.foldl (fun s c => (s.step c).2) ({} : Text.FormScan)).quote = none)
    (hbalanced : ∀ front, front <+: tokenize (String.ofList code) →
      front.count .rparen ≤ front.count .lparen) :
    (Text.topLevelForms text).map (fun form => (Program.ofText form).complete) =
        (Program.ofText (String.ofList code)).forms.map (fun d => .ok [d]) ∧
      ((Program.ofText (String.ofList code)).fault? = none ∨
        (Program.ofText (String.ofList code)).fault? = some .unexpectedEnd) := by
  have hend : Text.quoteAfter none code = none := by
    have hp : ({} : Text.FormScan).previous ≠ some '\\' := by decide
    exact (Text.FormScan.quote_foldl hp hb).symm.trans hquote
  have htokens := Token.tokenize_eq_toggleScan hb hend
  have hbal : Token.Balanced 0 (tokenize (String.ofList code)) := by
    refine Token.balanced_of_count fun front hfront => ?_
    rw [Nat.zero_add]
    exact hbalanced front hfront
  refine ⟨?_, Program.fault_balanced hbal⟩
  have hforms := Text.FormScan.agrees hb {} [] [] (Text.FormScan.Lockstep.fresh none (by decide)) hend
    (htokens ▸ hbal)
  rw [Program.resume_nil] at hforms
  rw [Text.topLevelForms, ← hcode, List.map_map, Program.ofText, htokens, ← hforms]
  rfl

/-- A bare word before a list, literals with parentheses and with the other quote, a comment and a
tail that is not closed. -/
theorem splitting_agrees_unclosed :
    let text := "a(b 'c)d'\") e\") ;; f\n (g (h"
    let code := "a(b 'c)d'\") e\") (g (h".toList
    Text.topLevelForms text = ["a", "(b 'c)d'\") e\")"] ∧
      (Text.topLevelForms text).map (fun form => (Program.ofText form).complete) =
        (Program.ofText (String.ofList code)).forms.map (fun d => .ok [d]) := by
  intro text code
  have hcode : code = Text.withoutComments text.toList := by decide
  have hquote : (code.foldl (fun s c => (s.step c).2) ({} : Text.FormScan)).quote = none := by decide
  have htokens : tokenize (String.ofList code) = [.word "a", .lparen, .word "b",
      .word "'c)d'\") e\"", .rparen, .lparen, .word "g", .lparen, .word "h"] := by decide
  have hbalanced : ∀ front, front <+: tokenize (String.ofList code) →
      front.count .rparen ≤ front.count .lparen := by
    rw [htokens]
    intro front hfront
    rw [List.prefix_iff_eq_take.mp hfront]
    have hlength := hfront.length_le
    generalize front.length = n at hlength
    revert n
    decide
  exact ⟨by decide, (splitting_agrees hcode (by decide) hquote hbalanced).1⟩

end SmallScheme
