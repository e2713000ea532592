import Mathlib.Data.List.TakeWhile
import SmallScheme.Proofs.Spacing

/-! How a text falls into tokens.

A word is made of literals, runs of plain characters and quotes that nothing closes, each taken by
the first rule that applies. Reading a text by these rules never gets stuck, loses nothing but the
blanks between tokens, and gives what the scan of the text gives. -/
namespace SmallScheme

namespace Text

/-- The text inside of a literal that `q` delimits: characters that are neither `q` nor a backslash,
and backslashes that each protect the character after them. -/
inductive LiteralBody (q : Char) : List Char → Prop where
  | nil : LiteralBody q []
  | plain {c : Char} {body : List Char} : c ≠ q → c ≠ '\\' → LiteralBody q body →
      LiteralBody q (c :: body)
  | pair (c : Char) {body : List Char} : LiteralBody q body → LiteralBody q ('\\' :: c :: body)

/-- The rest of a text closes a literal that `q` has opened before it. -/
def Terminates (q : Char) (cs : List Char) : Prop :=
  ∃ body rest, LiteralBody q body ∧ cs = body ++ q :: rest

theorem ne_backslash_of_isQuote {q : Char} (hq : isQuote q = true) : q ≠ '\\' := by
  rintro rfl
  cases hq

theorem LiteralBody.literalLength? {q : Char} (hq : isQuote q = true) {body : List Char}
    (h : LiteralBody q body) (rest : List Char) :
    literalLength? q (body ++ q :: rest) = some (body.length + 1) := by
  rw [literalLength?_eq_closer?]
  induction h with
  | nil => exact closer?_self hq rest
  | plain hc hb _ ih =>
    rw [List.cons_append, closer?_other hb (Ne.symm hc), ih]
    rfl
  | pair c _ ih =>
    rw [List.cons_append, List.cons_append]
    simp [closer?, ih]

theorem exists_body {q : Char} {cs : List Char} {n : Nat} (h : literalLength? q cs = some n) :
    ∃ body rest, LiteralBody q body ∧ cs = body ++ q :: rest ∧ n = body.length + 1 := by
  fun_induction Text.literalLength? q cs generalizing n with
  | case1 => cases h
  | case2 => cases h
  | case3 c cs ih =>
    obtain ⟨m, hm, rfl⟩ := Option.map_eq_some_iff.mp h
    obtain ⟨body, rest, hbody, rfl, rfl⟩ := ih hm
    exact ⟨'\\' :: c :: body, rest, .pair c hbody, rfl, rfl⟩
  | case4 cs _ _ =>
    cases h
    exact ⟨[], cs, .nil, rfl, rfl⟩
  | case5 c cs hlast hpair hc ih =>
    have hb : c ≠ '\\' := by
      intro hb
      cases cs with
      | nil => exact hlast hb rfl
      | cons d cs => exact hpair d cs hb rfl
    obtain ⟨m, hm, rfl⟩ := Option.map_eq_some_iff.mp h
    obtain ⟨body, rest, hbody, rfl, rfl⟩ := ih hm
    exact ⟨c :: body, rest, .plain hc hb hbody, rfl, rfl⟩

theorem literalLength?_eq_none {q : Char} (hq : isQuote q = true) {cs : List Char} :
    literalLength? q cs = none ↔ ¬ Terminates q cs := by
  constructor
  · rintro hnone ⟨body, rest, hbody, rfl⟩
    rw [hbody.literalLength? hq rest] at hnone
    cases hnone
  · intro hopen
    apply Option.eq_none_iff_forall_ne_some.mpr
    intro n hn
    obtain ⟨body, rest, hbody, hcs, _⟩ := exists_body hn
    exact hopen ⟨body, rest, hbody, hcs⟩

/-- The characters of a word that mean nothing to the scan. -/
def isPlain (c : Char) : Bool := !isDelimiter c && !isQuote c

theorem isPlain_iff {c : Char} : isPlain c = true ↔ isDelimiter c = false ∧ isQuote c = false := by
  simp [isPlain]

/-- A part of a word that stands before `rest`. Blanks and parentheses occur in literals only, and a
quote stands for itself only if nothing in `rest` closes it. -/
inductive Segment (rest : List Char) : List Char → Prop where
  | literal {q : Char} {body : List Char} : isQuote q = true → LiteralBody q body →
      Segment rest (q :: body ++ [q])
  | run {cs : List Char} : cs ≠ [] → (∀ c ∈ cs, isPlain c = true) → Segment rest cs
  | stray {q : Char} : isQuote q = true → ¬ Terminates q rest → Segment rest [q]

/-- A word that stands before `rest` and consists of such parts. -/
inductive Segmented (rest : List Char) : List Char → Prop where
  | nil : Segmented rest []
  | cons {part word : List Char} : Segment (word ++ rest) part → Segmented rest word →
      Segmented rest (part ++ word)

theorem Segment.ne_nil {rest part : List Char} (h : Segment rest part) : part ≠ [] := by
  cases h with
  | literal _ _ => exact List.cons_ne_nil _ _
  | run hne _ => exact hne
  | stray _ _ => exact List.cons_ne_nil _ _

/-- A part of a word does not start with a delimiter. -/
theorem Segment.head {rest part : List Char} (h : Segment rest part) :
    ∀ c ∈ part.head?, isDelimiter c = false := by
  cases h with
  | literal hq _ =>
    rintro c ⟨⟩
    exact isDelimiter_of_isQuote hq
  | run hne hplain =>
    intro c hc
    exact (isPlain_iff.mp (hplain c (List.mem_of_mem_head? hc))).1
  | stray hq _ =>
    rintro c ⟨⟩
    exact isDelimiter_of_isQuote hq

/-! The rules for the parts of a word. Each gives the part at the front of a text and the text after
it, or fails. -/

def literal? (q : Char) : List Char → Option (List Char × List Char)
  | [] => none
  | c :: cs =>
    if c = q then (literalLength? q cs).map fun n => (c :: cs.take n, cs.drop n) else none

def run? (cs : List Char) : Option (List Char × List Char) :=
  if (cs.takeWhile isPlain).isEmpty then none else some (cs.takeWhile isPlain, cs.dropWhile isPlain)

def quote? : List Char → Option (List Char × List Char)
  | [] => none
  | c :: cs => if isQuote c then some ([c], cs) else none

/-- The part of a word at the front of a text, by the first rule that does not fail. -/
def segment? (cs : List Char) : Option (List Char × List Char) :=
  (literal? '"' cs).or ((literal? '\'' cs).or ((run? cs).or (quote? cs)))

theorem literal?_eq_some {q : Char} {cs part rest : List Char} (hq : isQuote q = true)
    (h : literal? q cs = some (part, rest)) : cs = part ++ rest ∧ Segment rest part := by
  cases cs with
  | nil => cases h
  | cons c cs =>
    rw [literal?] at h
    split at h
    · next hc =>
      subst hc
      obtain ⟨n, hn, hpair⟩ := Option.map_eq_some_iff.mp h
      obtain ⟨body, after, hbody, rfl, rfl⟩ := exists_body hn
      cases hpair
      have hsplit : body ++ c :: after = (body ++ [c]) ++ after := by simp
      have hlength : (body ++ [c]).length = body.length + 1 := by simp
      rw [hsplit, List.take_left' hlength, List.drop_left' hlength]
      refine ⟨?_, .literal hq hbody⟩
      rw [List.cons_append, List.append_assoc]
    · cases h

theorem literal?_eq_none {q : Char} {cs : List Char} (h : literal? q (q :: cs) = none) :
    literalLength? q cs = none := by
  rw [literal?, if_pos rfl, Option.map_eq_none_iff] at h
  exact h

theorem run?_eq_some {cs part rest : List Char} (h : run? cs = some (part, rest)) :
    cs = part ++ rest ∧ Segment rest part := by
  unfold run? at h
  split at h
  · cases h
  · next hne =>
    cases h
    refine ⟨List.takeWhile_append_dropWhile.symm, .run ?_ fun c hc => List.mem_takeWhile_imp hc⟩
    simpa using hne

/-- The part that is taken and the text that is left make up the text. -/
theorem segment?_eq_some {cs part rest : List Char} (h : segment? cs = some (part, rest)) :
    cs = part ++ rest ∧ Segment rest part := by
  simp only [segment?, Option.or_eq_some_iff] at h
  -- a rule is come to only where the rules before it have failed
  rcases h with h | ⟨hdouble, h | ⟨hsingle, h | ⟨_, h⟩⟩⟩
  · exact literal?_eq_some (by decide) h
  · exact literal?_eq_some (by decide) h
  · exact run?_eq_some h
  · cases cs with
    | nil => cases h
    | cons c cs =>
      rw [quote?] at h
      split at h
      · next hq =>
        cases h
        have hopen : literalLength? c rest = none := by
          rcases (Bool.or_eq_true _ _).mp hq with hc | hc
          · rw [of_decide_eq_true hc] at hdouble ⊢
            exact literal?_eq_none hdouble
          · rw [of_decide_eq_true hc] at hsingle ⊢
            exact literal?_eq_none hsingle
        exact ⟨rfl, .stray hq ((literalLength?_eq_none hq).mp hopen)⟩
      · cases h

/-- All rules fail only where a word has ended. -/
theorem delimited_of_segment? {cs : List Char} (h : segment? cs = none) : Delimited cs := by
  simp only [segment?, Option.or_eq_none_iff] at h
  obtain ⟨_, _, hrun, hquote⟩ := h
  cases cs with
  | nil => exact Token.delimited_nil
  | cons c cs =>
    rintro d ⟨⟩
    have hq : isQuote c = false := by
      rw [quote?] at hquote
      split at hquote
      · cases hquote
      · next hq => exact Bool.eq_false_iff.mpr hq
    by_contra hd
    have hplain : isPlain c = true := isPlain_iff.mpr ⟨Bool.eq_false_iff.mpr hd, hq⟩
    simp [run?, hplain] at hrun

/-- The parts at the front of a text, as many as there are, and the text after them. -/
def segments (cs : List Char) : List Char × List Char :=
  match h : segment? cs with
  | none => ([], cs)
  | some (part, rest) =>
    have : rest.length < cs.length := by
      obtain ⟨hcs, hpart⟩ := segment?_eq_some h
      have hpos := List.length_pos_iff.mpr hpart.ne_nil
      rw [hcs, List.length_append]
      omega
    (part ++ (segments rest).1, (segments rest).2)
termination_by cs.length

theorem segments_eq {cs word rest : List Char} (h : segments cs = (word, rest)) :
    cs = word ++ rest ∧ Segmented rest word ∧ Delimited rest := by
  fun_induction segments cs generalizing word rest with
  | case1 cs hnone =>
    cases h
    exact ⟨rfl, .nil, delimited_of_segment? hnone⟩
  | case2 cs part after hsome _ ih =>
    cases h
    obtain ⟨hcs, hpart⟩ := segment?_eq_some hsome
    obtain ⟨hafter, hword, hd⟩ := ih rfl
    rw [hafter] at hpart
    refine ⟨?_, .cons hpart hword, hd⟩
    rw [List.append_assoc, ← hafter]
    exact hcs

/-- A word does not start with a delimiter. -/
theorem Segmented.head {rest word : List Char} (h : Segmented rest word) :
    ∀ c ∈ word.head?, isDelimiter c = false := by
  cases h with
  | nil => exact nofun
  | cons hpart _ =>
    intro c hc
    rw [List.head?_append, Option.or_of_isSome (List.isSome_head?.mpr hpart.ne_nil)] at hc
    exact hpart.head c hc

end Text

namespace Token
open Text

/-- The token at the front of a text that does not start with a blank, and the text after it. -/
def first? : List Char → Option (Token × List Char)
  | [] => none
  | c :: cs =>
    if c = '(' then some (lparen, cs)
    else if c = ')' then some (rparen, cs)
    else if (segments (c :: cs)).1.isEmpty then none
    else some (.word (String.ofList (segments (c :: cs)).1), (segments (c :: cs)).2)

/-- A token stands at the front of a text, and a word goes on as far as it can. -/
structure Fronts (cs : List Char) (t : Token) (rest : List Char) : Prop where
  text : cs = t.text.toList ++ rest
  nonempty : t.text.toList ≠ []
  word : ∀ w, t = .word w → Segmented rest w.toList ∧ Delimited rest

theorem first?_eq_some {cs rest : List Char} {t : Token} (h : first? cs = some (t, rest)) :
    Fronts cs t rest := by
  cases cs with
  | nil => cases h
  | cons c cs =>
    rw [first?] at h
    split at h
    · next hc =>
      cases h
      exact ⟨congrArg (· :: rest) hc, nofun, nofun⟩
    split at h
    · next hc =>
      cases h
      exact ⟨congrArg (· :: rest) hc, nofun, nofun⟩
    split at h
    · cases h
    · next hne =>
      cases h
      obtain ⟨hcs, hword, hd⟩ := @segments_eq (c :: cs) _ _ rfl
      have htext : (Token.word (String.ofList (segments (c :: cs)).1)).text.toList =
          (segments (c :: cs)).1 := String.toList_ofList
      refine ⟨?_, ?_, ?_⟩
      · rw [htext]
        exact hcs
      · rw [htext]
        simpa using hne
      · rintro w ⟨⟩
        rw [String.toList_ofList]
        exact ⟨hword, hd⟩

/-- Reading a token fails on no text but one that is empty or starts with a blank. -/
theorem first?_isSome {c : Char} {cs : List Char} (hc : isBlank c = false) :
    (first? (c :: cs)).isSome = true := by
  rw [first?]
  split
  · rfl
  split
  · rfl
  · next hopen hclose =>
    obtain ⟨hcs, _, hd⟩ := @segments_eq (c :: cs) _ _ rfl
    -- if no part could be taken then the first character would end a word
    have hne : (segments (c :: cs)).1 ≠ [] := by
      intro hnil
      rw [hnil, List.nil_append] at hcs
      rw [← hcs] at hd
      have hdelim : isDelimiter c = true := hd c rfl
      simp [isDelimiter, hopen, hclose, hc] at hdelim
    simp [hne]

/-- Reads tokens one after another, with blanks between them. Where no token can be read, `fallback`
says what becomes of all that is left. -/
def readAll (fallback : List Char → List Token) (cs : List Char) : List Token :=
  match hrest : cs.dropWhile isBlank with
  | [] => []
  | c :: after =>
    match hfirst : first? (c :: after) with
    | none => fallback (c :: after)
    | some (t, rest) =>
      have : rest.length < cs.length := by
        have hfront := first?_eq_some hfirst
        have hlength := congrArg List.length hfront.text
        have hpos := List.length_pos_iff.mpr hfront.nonempty
        have hle := (List.dropWhile_suffix isBlank (l := cs)).length_le
        rw [hrest] at hle
        rw [List.length_append] at hlength
        omega
      t :: readAll fallback rest
termination_by cs.length

theorem scan_run {part : List Char} (h : ∀ c ∈ part, isPlain c = true) (current rest : List Char) :
    scan 0 current (part ++ rest) = scan 0 (part.reverse ++ current) rest := by
  induction part generalizing current with
  | nil => rfl
  | cons c part ih =>
    obtain ⟨hc, hpart⟩ := List.forall_mem_cons.mp h
    obtain ⟨hd, hq⟩ := isPlain_iff.mp hc
    rw [List.cons_append, scan_other hd, hq, if_neg Bool.false_ne_true, ih hpart, List.reverse_cons,
      List.append_assoc]
    rfl

/-- Outside of literals the scan goes through a part of a word as a whole. -/
theorem scan_segment {rest part : List Char} (h : Segment rest part) (current : List Char) :
    scan 0 current (part ++ rest) = scan 0 (part.reverse ++ current) rest := by
  cases h with
  | @literal q body hq hbody =>
    have hlength : literalLength? q (body ++ [q] ++ rest) = some (body ++ [q]).length := by
      rw [List.append_assoc, List.singleton_append, hbody.literalLength? hq, List.length_append]
      rfl
    rw [List.cons_append, List.cons_append, scan_other (isDelimiter_of_isQuote hq), if_pos hq,
      hlength, Option.getD_some, scan_literal, List.reverse_cons, List.append_assoc]
    rfl
  | run _ hplain => exact scan_run hplain current rest
  | @stray q hq hopen =>
    have hlength := (literalLength?_eq_none hq).mpr hopen
    rw [List.cons_append, List.nil_append, scan_other (isDelimiter_of_isQuote hq), if_pos hq,
      hlength]
    rfl

theorem scan_segmented {rest word : List Char} (h : Segmented rest word) (current : List Char) :
    scan 0 current (word ++ rest) = scan 0 (word.reverse ++ current) rest := by
  induction h generalizing current with
  | nil => rfl
  | cons hpart _ ih =>
    rw [List.append_assoc, scan_segment hpart, ih, List.reverse_append, List.append_assoc]

/-- What ends a word in the text ends it in the scan. -/
theorem scan_delimited {cs : List Char} (hd : Delimited cs) (current : List Char) :
    scan 0 current cs = withWord current (scan 0 [] cs) := by
  cases cs with
  | nil => rfl
  | cons c cs =>
    have hc := hd c rfl
    rw [scan_delimiter hc, scan_delimiter hc]
    rfl

theorem scan_fronts {cs rest : List Char} {t : Token} (h : Fronts cs t rest) :
    scan 0 [] cs = t :: scan 0 [] rest := by
  rw [h.text]
  cases t with
  | lparen => exact scan_delimiter (by decide) [] rest
  | rparen => exact scan_delimiter (by decide) [] rest
  | word w =>
    obtain ⟨hword, hd⟩ := h.word w rfl
    change scan 0 [] (w.toList ++ rest) = _
    rw [scan_segmented hword, scan_delimited hd, List.append_nil]
    have hne := h.nonempty
    change w.toList ≠ [] at hne
    obtain ⟨c, cs, hcs⟩ := List.exists_cons_of_ne_nil hne
    rw [hcs, withWord_reverse_cons, ← hcs, String.ofList_toList]

theorem scan_dropWhile (cs : List Char) : scan 0 [] (cs.dropWhile isBlank) = scan 0 [] cs := by
  induction cs with
  | nil => rfl
  | cons c cs ih =>
    rw [List.dropWhile_cons]
    split
    · next hc =>
      rw [ih, scan_delimiter (isDelimiter_of_isBlank hc), mark_blank hc]
      rfl
    · rfl

/-- After blanks a token can be read, unless the text is at its end. -/
theorem first?_dropWhile {cs rest : List Char} {c : Char} (h : cs.dropWhile isBlank = c :: rest) :
    first? (c :: rest) ≠ none := by
  have hc := List.head?_dropWhile_not isBlank cs
  rw [h] at hc
  exact Option.isSome_iff_ne_none.mp (first?_isSome hc)

/-- Reading by the rules gives the tokens of the scan, and never comes to the fallback. -/
theorem readAll_eq_scan (fallback : List Char → List Token) (cs : List Char) :
    readAll fallback cs = scan 0 [] cs := by
  fun_induction readAll fallback cs with
  | case1 cs hrest =>
    rw [← scan_dropWhile, hrest]
    rfl
  | case2 cs c after hrest hfirst => exact absurd hfirst (first?_dropWhile hrest)
  | case3 cs c after hrest t rest hfirst _ ih =>
    rw [← scan_dropWhile, hrest, scan_fronts (first?_eq_some hfirst), ih]

/-- The text that follows the token with index `i`. -/
def textAfter (gap : Nat → String) (ts : List Token) (i : Nat) : String :=
  spaced (fun j => gap (j + (i + 1))) (ts.drop (i + 1))

/-- The gaps are blank, they keep words apart, and every word has the shape of a word in the text
that follows it. -/
structure Divides (gap : Nat → String) (ts : List Token) : Prop where
  separates : Separates gap ts
  words : ∀ i w, ts[i]? = some (.word w) →
    w ≠ "" ∧ Segmented (textAfter gap ts i).toList w.toList

/-- The gaps of a text with one more token in front. -/
def precede (g : String) (gap : Nat → String) : Nat → String
  | 0 => g
  | i + 1 => gap i

theorem Divides.blanks {g : String} (hg : ∀ c ∈ g.toList, isBlank c = true) :
    Divides (fun _ => g) [] where
  separates := ⟨fun _ _ => hg, nofun⟩
  words := nofun

/-- Before a word that follows a word there is a gap, since a word goes on as far as it can. -/
theorem Divides.gap_ne_empty {gap : Nat → String} {ts : List Token} (h : Divides gap ts)
    {w : String} (hw : ts[0]? = some (.word w)) (hd : Delimited (spaced gap ts).toList) :
    gap 0 ≠ "" := by
  intro hnone
  obtain ⟨hne, hword⟩ := h.words 0 w hw
  cases ts with
  | nil => cases hw
  | cons t ts =>
    cases hw
    obtain ⟨c, cs, hcs⟩ := List.exists_cons_of_ne_nil (mt String.toList_eq_nil_iff.mp hne)
    have hc : isDelimiter c = false := hword.head c (by rw [hcs]; rfl)
    -- without a gap the word before would end at the first character of this one
    rw [spaced, hnone, String.toList_append, String.toList_append] at hd
    change Delimited ([] ++ w.toList ++ _) at hd
    rw [hcs] at hd
    have hc' : isDelimiter c = true := hd c rfl
    rw [hc] at hc'
    cases hc'

theorem Divides.cons {g : String} (hg : ∀ c ∈ g.toList, isBlank c = true) {gap : Nat → String}
    {t : Token} {ts : List Token} {cs : List Char} (h : Divides gap ts)
    (hfront : Fronts cs t (spaced gap ts).toList) : Divides (precede g gap) (t :: ts) where
  separates := by
    refine ⟨fun i hi => ?_, fun i v w hv hw => ?_⟩
    · cases i with
      | zero => exact hg
      | succ i => exact h.separates.blank i (Nat.le_of_succ_le_succ hi)
    · cases i with
      | zero =>
        have hd := (hfront.word v (Option.some.inj hv)).2
        exact h.gap_ne_empty hw hd
      | succ i => exact h.separates.apart i v w hv hw
  words := by
    intro i w hw
    cases i with
    | zero =>
      obtain rfl : t = .word w := Option.some.inj hw
      exact ⟨mt String.toList_eq_nil_iff.mpr hfront.nonempty, (hfront.word w rfl).1⟩
    | succ i => exact h.words i w hw

/-- Reading leaves out nothing but gaps. -/
theorem exists_divides (fallback : List Char → List Token) (cs : List Char) :
    ∃ gap, Divides gap (readAll fallback cs) ∧
      spaced gap (readAll fallback cs) = String.ofList cs := by
  fun_induction readAll fallback cs with
  | case1 cs hrest =>
    refine ⟨fun _ => String.ofList cs, Divides.blanks ?_, rfl⟩
    rw [String.toList_ofList]
    exact List.dropWhile_eq_nil_iff.mp hrest
  | case2 cs c after hrest hfirst => exact absurd hfirst (first?_dropWhile hrest)
  | case3 cs c after hrest t rest hfirst _ ih =>
    obtain ⟨gap, hgap, hspaced⟩ := ih
    have hfront := first?_eq_some hfirst
    have hrest' : (spaced gap (readAll fallback rest)).toList = rest := by
      rw [hspaced, String.toList_ofList]
    refine ⟨precede (String.ofList (cs.takeWhile isBlank)) gap,
      hgap.cons ?_ (hrest'.symm ▸ hfront), ?_⟩
    · rw [String.toList_ofList]
      exact fun c hc => List.mem_takeWhile_imp hc
    · have hcs : cs = cs.takeWhile isBlank ++ (t.text.toList ++ rest) := by
        rw [← hfront.text, ← hrest, List.takeWhile_append_dropWhile]
      calc spaced (precede (String.ofList (cs.takeWhile isBlank)) gap) (t :: readAll fallback rest)
          = String.ofList (cs.takeWhile isBlank) ++ t.text ++ String.ofList rest :=
            congrArg _ hspaced
        _ = String.ofList (cs.takeWhile isBlank ++ (t.text.toList ++ rest)) := by
            rw [String.ofList_append, String.ofList_append, String.ofList_toList,
              String.append_assoc]
        _ = String.ofList cs := congrArg _ hcs.symm

end Token

/-- A text falls into its tokens and blanks, and nothing else. The tokens are parentheses and words
that are not empty, with gaps of blanks around them that are not empty between two words. A word
consists of plain characters, of literals, which alone hold blanks and parentheses and end at the
first quote like the one they start with that no backslash protects, and of quotes that nothing in
the rest of the text closes. Reading the text token by token by the rules for the parts of words
gives the same tokens, whatever is done where no token can be read, since that is only at a blank or
at the end. -/
theorem tokenize_lossless (text : String) :
    (∃ gap, Token.Divides gap (tokenize text) ∧ Token.spaced gap (tokenize text) = text) ∧
    (∀ fallback, Token.readAll fallback text.toList = tokenize text) ∧
    ∀ c cs, Text.isBlank c = false → (Token.first? (c :: cs)).isSome = true := by
  refine ⟨?_, fun fallback => ?_, fun c cs hc => ?_⟩
  · obtain ⟨gap, hgap, hspaced⟩ := Token.exists_divides (fun _ => []) text.toList
    rw [Token.readAll_eq_scan] at hgap hspaced
    rw [String.ofList_toList] at hspaced
    exact ⟨gap, hgap, hspaced⟩
  · exact Token.readAll_eq_scan fallback text.toList
  · exact Token.first?_isSome hc

/-- A word with a literal inside that holds a blank, a parenthesis and a protected quote, a quote of
the other kind that nothing closes, and one at the very end. -/
theorem tokenize_lossless_quotes :
    let text := "(f\"a )\\\" b\"c 'd) \""
    let ts : List Token := [.lparen, .word "f\"a )\\\" b\"c", .word "'d", .rparen, .word "\""]
    tokenize text = ts ∧ (∃ gap, Token.Divides gap ts ∧ Token.spaced gap ts = text) ∧
      Token.readAll (fun rest => [.word (String.ofList rest)]) text.toList = ts := by
  intro text ts
  have htokens : tokenize text = ts := by decide
  have hcut := tokenize_lossless text
  rw [htokens] at hcut
  exact ⟨htokens, hcut.1, hcut.2.1 _⟩

end SmallScheme
