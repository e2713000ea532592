import SmallScheme.Proofs.Running

/-! Which failures a report shows.

A text is cut into forms by a scan that looks no further than parentheses and quotes, and what is left
open at its end is dropped. As long as no quote stays open and no more lists are closed than opened,
nothing is lost that could fail: up to the first parenthesis that closes nothing every form is cut out
and read as the whole text is, and that parenthesis is part of the next form. -/
namespace SmallScheme

namespace Token
open Text

/-- The two questions that both readers ask of a character: is a literal open, and does the character
delimit words? -/
theorem continues_or_delimits (quote : Option Char) (c : Char) :
    (quote.isSome = true ∨ isDelimiter c = false) ∨ (quote = none ∧ isDelimiter c = true) := by
  by_cases hc : quote.isSome = true ∨ isDelimiter c = false
  · exact Or.inl hc
  · obtain ⟨hopen, hdelim⟩ := not_or.mp hc
    exact Or.inr ⟨Option.not_isSome_iff_eq_none.mp hopen, eq_true_of_ne_false hdelim⟩

/-- A delimiter outside of literals divides the tokens of a text. -/
theorem toggleScan_append {quote : Option Char} {c : Char} {cs : List Char}
    (hend : quoteAfter quote cs = none) (hc : isDelimiter c = true) (current ds : List Char) :
    toggleScan quote current (cs ++ c :: ds) =
      toggleScan quote current cs ++ (mark c ++ toggleScan none [] ds) := by
  induction cs generalizing quote current with
  | nil =>
    have hq : quote = none := hend
    rw [List.nil_append, hq, toggleScan_delimiter hc, toggleScan, withWord_append, List.nil_append]
  | cons d cs ih =>
    rcases continues_or_delimits quote d with hd | ⟨hq, hd⟩
    · rw [List.cons_append, toggleScan_other hd, toggleScan_other hd]
      exact ih hend (d :: current)
    · -- the word ends here in both texts, and no quote is open after it
      rw [quoteAfter, List.foldl_cons, nextQuote_of_isDelimiter hd, hq] at hend
      rw [List.cons_append, hq, toggleScan_delimiter hd, toggleScan_delimiter hd, ih hend [],
        withWord_append, List.append_assoc]

theorem depth_withWord (current : List Char) (ts : List Token) :
    depth (withWord current ts) = depth ts := by
  unfold withWord
  split
  · rfl
  · rw [depth_cons, rise, Int.zero_add]

theorem depth_mark_open : depth (mark '(') = 1 := rfl

theorem depth_mark_close : depth (mark ')') = -1 := rfl

theorem depth_mark_blank {c : Char} (hc : isBlank c = true) : depth (mark c) = 0 := by
  rw [mark_blank hc, depth_nil]

theorem depth_mark_nonneg {c : Char} (hc : c ≠ ')') : 0 ≤ depth (mark c) := by
  unfold mark
  rw [if_neg hc]
  split <;> decide

/-- A delimiter opens a list, closes one or does neither. -/
theorem balanced_mark {c : Char} (hc : isDelimiter c = true) {lists inner : Nat}
    (hinner : (inner : Int) = lists + depth (mark c)) (ts : List Token) :
    Balanced lists (mark c ++ ts) ↔ Balanced inner ts := by
  by_cases hleft : c = '('
  · subst hleft
    rw [depth_mark_open] at hinner
    have h : inner = lists + 1 := by omega
    subst h
    rfl
  by_cases hright : c = ')'
  · subst hright
    rw [depth_mark_close] at hinner
    have h : lists = inner + 1 := by omega
    subst h
    exact and_iff_right (Nat.succ_pos inner)
  · have hblank : isBlank c = true := by simpa [isDelimiter, hleft, hright] using hc
    rw [depth_mark_blank hblank, Int.add_zero] at hinner
    rw [mark_blank hblank, Int.ofNat.inj hinner]
    rfl

/-- The tokens of a text are balanced, or there is a first parenthesis that closes nothing. -/
theorem balanced_or_stray (lists : Nat) (quote : Option Char) (word cs : List Char) :
    Balanced lists (toggleScan quote word cs) ∨
      ∃ before after, cs = before ++ ')' :: after ∧ quoteAfter quote before = none ∧
        Balanced lists (toggleScan quote word before) ∧
        lists + depth (toggleScan quote word before) = 0 := by
  induction cs generalizing lists quote word with
  | nil =>
    left
    rw [toggleScan, balanced_withWord]
    trivial
  | cons c cs ih =>
    rcases continues_or_delimits quote c with hc | ⟨hq, hd⟩
    · rw [toggleScan_other hc]
      rcases ih lists (nextQuote quote c) (c :: word) with h | ⟨before, after, hcs, hq, hbal, hzero⟩
      · exact Or.inl h
      · refine Or.inr ⟨c :: before, after, by rw [hcs, List.cons_append], hq, ?_⟩
        rw [toggleScan_other hc]
        exact ⟨hbal, hzero⟩
    subst hq
    by_cases hstray : c = ')' ∧ lists = 0
    · obtain ⟨rfl, rfl⟩ := hstray
      refine Or.inr ⟨[], cs, rfl, rfl, ?_, ?_⟩
      · rw [toggleScan, balanced_withWord]
        trivial
      · rw [toggleScan, depth_withWord]
        rfl
    · -- the delimiter leaves a number of lists open, and the rest is read inside of those
      have hnonneg : 0 ≤ lists + depth (mark c) := by
        by_cases hclose : c = ')'
        · have hlists : lists ≠ 0 := fun h => hstray ⟨hclose, h⟩
          rw [hclose, depth_mark_close]
          omega
        · have := depth_mark_nonneg hclose
          omega
      obtain ⟨inner, hinner⟩ := Int.eq_ofNat_of_zero_le hnonneg
      rw [toggleScan_delimiter hd, balanced_withWord, balanced_mark hd hinner.symm]
      rcases ih inner none [] with h | ⟨before, after, hcs, hend, hbal, hzero⟩
      · exact Or.inl h
      · refine Or.inr ⟨c :: before, after, by rw [hcs, List.cons_append], ?_, ?_, ?_⟩
        · rw [quoteAfter, List.foldl_cons, nextQuote_of_isDelimiter hd]
          exact hend
        · rw [toggleScan_delimiter hd, balanced_withWord, balanced_mark hd hinner.symm]
          exact hbal
        · rw [toggleScan_delimiter hd, depth_withWord, depth_append]
          omega

/-- Blanks before a text have no tokens. -/
theorem toggleScan_blanks {bs : List Char} (hbs : ∀ c ∈ bs, isBlank c = true) (cs : List Char) :
    toggleScan none [] (bs ++ cs) = toggleScan none [] cs := by
  induction bs with
  | nil => rfl
  | cons b bs ih =>
    have hb : isBlank b = true := hbs b List.mem_cons_self
    rw [List.cons_append, toggleScan_delimiter (isDelimiter_of_isBlank hb), mark_blank hb,
      ih fun c hc => hbs c (List.mem_cons_of_mem b hc)]
    rfl

/-- Blanks after a text that ends outside of literals have no tokens. -/
theorem toggleScan_append_blanks {bs cs : List Char} (hbs : ∀ c ∈ bs, isBlank c = true)
    (hend : quoteAfter none cs = none) : toggleScan none [] (cs ++ bs) = toggleScan none [] cs := by
  cases bs with
  | nil => rw [List.append_nil]
  | cons b bs =>
    have hb : isBlank b = true := hbs b List.mem_cons_self
    have hnone : toggleScan none [] bs = [] := by
      have h := toggleScan_blanks (fun c hc => hbs c (List.mem_cons_of_mem b hc)) []
      rwa [List.append_nil] at h
    rw [toggleScan_append hend (isDelimiter_of_isBlank hb), mark_blank hb, hnone]
    exact List.append_nil _

end Token

namespace Text
open Token

theorem quoteAfter_blanks {bs : List Char} (hbs : ∀ c ∈ bs, isBlank c = true) (quote : Option Char) :
    quoteAfter quote bs = quote := by
  induction bs with
  | nil => rfl
  | cons b bs ih =>
    have hb := isDelimiter_of_isBlank (hbs b List.mem_cons_self)
    rw [quoteAfter, List.foldl_cons, nextQuote_of_isDelimiter hb]
    exact ih fun c hc => hbs c (List.mem_cons_of_mem b hc)

/-- What is trimmed off a text is not read. -/
theorem ofText_trim {cs : List Char} (hb : '\\' ∉ cs) (hend : quoteAfter none cs = none) :
    Program.ofText (String.ofList (trim cs)) = Program.ofTokens (toggleScan none [] cs) := by
  obtain ⟨lead, trail, hcs, hlead, htrail⟩ := exists_trim cs
  have hb' : '\\' ∉ trim cs := by
    intro hmem
    refine hb ?_
    rw [hcs]
    exact List.mem_append_left _ (List.mem_append_right _ hmem)
  have hend' : quoteAfter none (trim cs) = none := by
    rw [hcs, quoteAfter_append, quoteAfter_append, quoteAfter_blanks hlead,
      quoteAfter_blanks htrail] at hend
    exact hend
  have hscan : toggleScan none [] cs = toggleScan none [] (trim cs) := by
    calc toggleScan none [] cs = toggleScan none [] (lead ++ (trim cs ++ trail)) := by
          rw [← List.append_assoc, ← hcs]
      _ = toggleScan none [] (trim cs ++ trail) := toggleScan_blanks hlead _
      _ = toggleScan none [] (trim cs) := toggleScan_append_blanks htrail hend'
  rw [Program.ofText, tokenize_eq_toggleScan hb' hend', hscan]

namespace FormScan

/-- The state of the scan after a text. -/
def ending (s : FormScan) (cs : List Char) : FormScan := cs.foldl (fun s c => (s.step c).2) s

/-- The forms that end inside of a text. -/
def emitted (s : FormScan) : List Char → List (List Char)
  | [] => []
  | c :: cs => (s.step c).1 ++ (s.step c).2.emitted cs

variable {s : FormScan} {c : Char}

theorem ending_cons (s : FormScan) (c : Char) (cs : List Char) :
    s.ending (c :: cs) = (s.step c).2.ending cs := rfl

theorem ending_append (s : FormScan) (cs ds : List Char) :
    s.ending (cs ++ ds) = (s.ending cs).ending ds := List.foldl_append

theorem forms_append (s : FormScan) (cs ds : List Char) :
    s.forms (cs ++ ds) = s.emitted cs ++ (s.ending cs).forms ds := by
  induction cs generalizing s with
  | nil => rfl
  | cons c cs ih => rw [List.cons_append, forms, emitted, ih, List.append_assoc, ending_cons]

/-- A delimiter outside of literals changes the depth by its parenthesis. It goes on with the form,
and then it does not lead above the top level, or it ends one. -/
theorem step_delimiter (hq : s.quote = none) (hc : isDelimiter c = true) :
    ((s.depth ≤ 0 → s.depth + Token.depth (mark c) ≤ 0) ∧
      s.step c = ([], ⟨c :: s.current, s.depth + Token.depth (mark c), none, some c⟩)) ∨
    s.step c = (finish s.current, ⟨['('], s.depth + Token.depth (mark c), none, some c⟩) ∨
    s.step c = (finish (c :: s.current), ⟨[], s.depth + Token.depth (mark c), none, some c⟩) := by
  have hquote : isQuote c = false := isQuote_of_isDelimiter hc
  by_cases hleft : c = '('
  · -- a list that is opened at the top level starts a new form
    subst hleft
    rw [depth_mark_open]
    by_cases hzero : s.depth = 0
    · exact Or.inr (Or.inl (by simp [step, hquote, hq, hzero]))
    · exact Or.inl ⟨by omega, by simp [step, hquote, hq, hzero]⟩
  by_cases hright : c = ')'
  · -- the parenthesis that closes the last list is part of the form that it ends
    subst hright
    rw [depth_mark_close]
    by_cases hone : s.depth = 1
    · exact Or.inr (Or.inr (by simp [step, hquote, hq, hone]))
    · exact Or.inl ⟨by omega, by simp [step, hquote, hq, hone, Int.sub_eq_add_neg]⟩
  · have hblank : isBlank c = true := by simpa [isDelimiter, hleft, hright] using hc
    rw [depth_mark_blank hblank, Int.add_zero]
    by_cases hzero : s.depth = 0
    · exact Or.inr (Or.inr (by simp [step, hquote, hq, hleft, hright, hzero, hblank]))
    · exact Or.inl ⟨id, by simp [step, hquote, hq, hleft, hright, hzero]⟩

theorem step_depth (hq : s.quote = none) (hc : isDelimiter c = true) :
    (s.step c).2.depth = s.depth + Token.depth (mark c) := by
  rcases step_delimiter hq hc with ⟨_, h⟩ | h | h <;> rw [h]

/-- The form so far has no backslash, and it has left the quote open that the scan has. -/
structure Aligned (s : FormScan) : Prop where
  quote : quoteAfter none s.current.reverse = s.quote
  unprotected : '\\' ∉ s.current
  previous : s.previous ≠ some '\\'

theorem Aligned.step (h : s.Aligned) (hcb : c ≠ '\\') : (s.step c).2.Aligned := by
  have hprev : some c ≠ some '\\' := fun he => hcb (Option.some.inj he)
  have hmem : '\\' ∉ c :: s.current := List.not_mem_cons_of_ne_of_not_mem (Ne.symm hcb) h.unprotected
  have hquote : quoteAfter none (c :: s.current).reverse = nextQuote s.quote c := by
    rw [List.reverse_cons, quoteAfter_append, h.quote]
    rfl
  rcases continues_or_delimits s.quote c with hc | ⟨hq, hd⟩
  · rw [step_other h.previous hc]
    exact ⟨hquote, hmem, hprev⟩
  rw [nextQuote_of_isDelimiter hd, hq] at hquote
  rcases step_delimiter hq hd with ⟨_, hstep⟩ | hstep | hstep
  · rw [hstep]
    exact ⟨hquote, hmem, hprev⟩
  · -- forms only end outside of literals, so a new one starts there as well
    rw [hstep]
    exact ⟨rfl, (by decide : '\\' ∉ ['(']), hprev⟩
  · rw [hstep]
    exact ⟨rfl, List.not_mem_nil, hprev⟩

theorem Aligned.ending {cs : List Char} (h : s.Aligned) (hb : '\\' ∉ cs) : (s.ending cs).Aligned := by
  induction cs generalizing s with
  | nil => exact h
  | cons c cs ih =>
    have hcb : c ≠ '\\' := Ne.symm (List.ne_of_not_mem_cons hb)
    exact ih (h.step hcb) (List.not_mem_of_not_mem_cons hb)

theorem finish_of_mem {current : List Char} (hmem : c ∈ current) (hc : isBlank c = false) :
    finish current = [trim current.reverse] := by
  have hne : trim current.reverse ≠ [] := trim_ne_nil (List.mem_reverse.mpr hmem) hc
  unfold finish
  simp [hne]

/-- The first form has a parenthesis that closes nothing, after the characters `before`, which are
given in reverse. -/
def ShowsStray (before : List Char) (forms : List (List Char)) : Prop :=
  ∃ more rest, forms = trim (before.reverse ++ ')' :: more) :: rest ∧
    quoteAfter none (before.reverse ++ ')' :: more) = none ∧
    '\\' ∉ before.reverse ++ ')' :: more

theorem showsStray_finish {before more current : List Char} (hcur : current = more ++ ')' :: before)
    (hend : quoteAfter none current.reverse = none) (hb : '\\' ∉ current)
    (rest : List (List Char)) : ShowsStray before (finish current ++ rest) := by
  have hrev : current.reverse = before.reverse ++ ')' :: more.reverse := by
    rw [hcur, List.reverse_append, List.reverse_cons, List.append_assoc, List.singleton_append]
  have hmem : ')' ∈ current := by
    rw [hcur]
    exact List.mem_append_right _ List.mem_cons_self
  refine ⟨more.reverse, rest, ?_, ?_, ?_⟩
  · rw [finish_of_mem hmem (by decide), hrev]
    rfl
  · rw [← hrev]
    exact hend
  · rw [← hrev]
    exact fun hm => hb (List.mem_reverse.mp hm)

/-- A form with a parenthesis that closes nothing ends sooner or later, unless the text closes more
lists than it opens. -/
theorem showsStray_forms {before more cs : List Char} (h : s.Aligned)
    (hcur : s.current = more ++ ')' :: before) (hdepth : s.depth ≤ 0) (hb : '\\' ∉ cs)
    (hend : (s.ending cs).quote = none) (hlast : 0 ≤ (s.ending cs).depth) :
    ShowsStray before (s.forms cs) := by
  -- the depth stays at zero or below until the form ends, so at the end of the text it is zero
  induction cs generalizing s more with
  | nil =>
    have hzero : s.depth = 0 := Int.le_antisymm hdepth hlast
    have hshows := showsStray_finish hcur (h.quote.trans hend) h.unprotected []
    rw [List.append_nil] at hshows
    rw [forms, if_pos hzero]
    exact hshows
  | cons c cs ih =>
    have hcb : c ≠ '\\' := Ne.symm (List.ne_of_not_mem_cons hb)
    have hb' : '\\' ∉ cs := List.not_mem_of_not_mem_cons hb
    have hcur' : c :: s.current = (c :: more) ++ ')' :: before := by rw [hcur, List.cons_append]
    have haligned := h.step hcb
    rw [ending_cons] at hend hlast
    rw [forms]
    rcases continues_or_delimits s.quote c with hc | ⟨hq, hd⟩
    · rw [step_other h.previous hc] at haligned hend hlast ⊢
      exact ih haligned hcur' hdepth hb' hend hlast
    rcases step_delimiter hq hd with ⟨hle, hstep⟩ | hstep | hstep
    · rw [hstep] at haligned hend hlast ⊢
      exact ih haligned hcur' (hle hdepth) hb' hend hlast
    · -- a parenthesis opens a list on the top level, and the form ends before it
      rw [hstep]
      exact showsStray_finish hcur (h.quote.trans hq) h.unprotected _
    · rw [hstep]
      have hmem : '\\' ∉ c :: s.current :=
        List.not_mem_cons_of_ne_of_not_mem (Ne.symm hcb) h.unprotected
      refine showsStray_finish hcur' ?_ hmem _
      rw [List.reverse_cons, quoteAfter_append, h.quote, hq]
      exact nextQuote_of_isDelimiter hd none

/-- The scan counts the parentheses that are tokens. -/
theorem ending_depth {cs : List Char} (hp : s.previous ≠ some '\\') (hb : '\\' ∉ cs)
    (word : List Char) :
    (s.ending cs).depth = s.depth + Token.depth (toggleScan s.quote word cs) := by
  induction cs generalizing s word with
  | nil =>
    rw [toggleScan, depth_withWord, depth_nil, Int.add_zero]
    rfl
  | cons c cs ih =>
    have hcb : c ≠ '\\' := Ne.symm (List.ne_of_not_mem_cons hb)
    have hp' : (s.step c).2.previous ≠ some '\\' := by
      rw [step_previous]
      exact fun h => hcb (Option.some.inj h)
    have hrest (word : List Char) := ih hp' (List.not_mem_of_not_mem_cons hb) word
    rw [ending_cons]
    rcases continues_or_delimits s.quote c with hc | ⟨hq, hd⟩
    · rw [toggleScan_other hc, hrest (c :: word), step_other hp hc]
    · rw [hrest [], step_depth hq hd, step_quote hp, nextQuote_of_isDelimiter hd, hq,
        toggleScan_delimiter hd, depth_withWord, depth_append, Int.add_assoc]

end FormScan

end Text

namespace Program
open Token

theorem ofTokens_close (us : List Token) :
    ofTokens (.rparen :: us) = ⟨[], some .unexpectedClose⟩ := by
  rw [ofTokens, dif_neg (List.cons_ne_nil _ _)]
  rfl

/-- A parenthesis that closes nothing ends a program. -/
theorem ofTokens_append_close {ts : List Token} (h : (ofTokens ts).fault? = none) (us : List Token) :
    ofTokens (ts ++ .rparen :: us) = ⟨(ofTokens ts).forms, some .unexpectedClose⟩ := by
  rw [ofTokens_append h, ofTokens_close, List.append_nil]

end Program

namespace Text.FormScan
open Token

/-- The form that ends here is read as it stands. -/
theorem ofTokens_finish {current : List Char} {ds : List Datum}
    (hin : Report.Matches ((finish current).map String.ofList) ds) (hb : '\\' ∉ current)
    (hend : quoteAfter none current.reverse = none) :
    Program.ofTokens (toggleScan none [] current.reverse) = ⟨ds, none⟩ := by
  have hb' : '\\' ∉ current.reverse := fun hm => hb (List.mem_reverse.mp hm)
  rw [← ofText_trim hb' hend]
  unfold finish at hin
  dsimp only at hin
  split at hin
  · next hnil =>
    cases List.map_eq_nil_iff.mp hin.symm
    rw [List.isEmpty_iff.mp hnil, Program.ofText, Program.ofTokens]
    rfl
  · obtain ⟨d, ds, rfl, hd, hds⟩ := List.map_eq_cons_iff.mp hin.symm
    cases List.map_eq_nil_iff.mp hds
    exact hd.symm

variable {s : FormScan}

/-- The scan is outside of lists and literals. -/
structure AtTop (s : FormScan) : Prop extends s.Aligned where
  closed : s.quote = none
  top : s.depth = 0

theorem AtTop.ending {cs : List Char} (h : s.AtTop) (hb : '\\' ∉ cs)
    (hquote : quoteAfter none cs = none) (hzero : Token.depth (toggleScan none [] cs) = 0) :
    (s.ending cs).AtTop where
  toAligned := h.toAligned.ending hb
  closed := by
    refine (quote_foldl h.previous hb).trans ?_
    rw [h.closed]
    exact hquote
  top := by
    rw [ending_depth h.previous hb [], h.top, h.closed, hzero]
    rfl

/-- The forms that end inside of a balanced text and the one that ends with it are all its forms. -/
theorem emitted_single {cs : List Char} (h : (ending {} cs).AtTop) (hb : '\\' ∉ cs)
    (hquote : quoteAfter none cs = none) (hbal : Balanced 0 (toggleScan none [] cs)) :
    ∃ ds ds', (Program.ofTokens (toggleScan none [] cs)).forms = ds ++ ds' ∧
      Report.Matches ((emitted {} cs).map String.ofList) ds ∧
      Report.Matches ((finish (ending {} cs).current).map String.ofList) ds' := by
  have hforms : forms {} cs = emitted {} cs ++ finish (ending {} cs).current := by
    have hsplit := forms_append {} cs []
    rwa [List.append_nil, forms, if_pos h.top] at hsplit
  have hsingle := forms_single hb hquote hbal
  rw [hforms, List.map_append, Report.Matches, List.map_append] at hsingle
  obtain ⟨ds, ds', hds, hin, hlast⟩ := List.map_eq_append_iff.mp hsingle.symm
  exact ⟨ds, ds', hds, hin.symm, hlast.symm⟩

/-- A parenthesis that closes nothing does not end the form, but that form ends later. -/
theorem AtTop.showsStray {cs : List Char} (h : s.AtTop) (hb : '\\' ∉ cs)
    (hend : (s.ending (')' :: cs)).quote = none) (hlast : 0 ≤ (s.ending (')' :: cs)).depth) :
    ShowsStray s.current (s.forms (')' :: cs)) := by
  have hnext : (s.step ')').2.Aligned := h.toAligned.step (by decide)
  have hstep : s.step ')' = ([], ⟨[] ++ ')' :: s.current, -1, none, some ')'⟩) := by
    simp [step, h.closed, h.top, isQuote]
  rw [ending_cons] at hend hlast
  rw [forms]
  rw [hstep] at hnext hend hlast ⊢
  have hbelow : (-1 : Int) ≤ 0 := by decide
  exact showsStray_forms hnext rfl hbelow hb hend hlast

/-- The form with the parenthesis is read as what was there before it, and then it fails. -/
theorem AtTop.ofText_stray {ds : List Datum} {texts : List (List Char)} (h : s.AtTop)
    (hin : Report.Matches ((finish s.current).map String.ofList) ds)
    (hshows : ShowsStray s.current texts) :
    ∃ text rest, texts = text :: rest ∧
      Program.ofText (String.ofList text) = ⟨ds, some .unexpectedClose⟩ := by
  obtain ⟨more, rest, htexts, hquote, hb⟩ := hshows
  have hcurrent : quoteAfter none s.current.reverse = none := h.quote.trans h.closed
  have hfinish := ofTokens_finish hin h.unprotected hcurrent
  refine ⟨_, rest, htexts, ?_⟩
  rw [ofText_trim hb hquote, toggleScan_append hcurrent (by decide)]
  refine (Program.ofTokens_append_close (by rw [hfinish]) _).trans ?_
  rw [hfinish]

/-- The forms of a text are cut out one by one up to its end, or up to a form that has the first
parenthesis that closes nothing, and with it all that can still be read. -/
theorem forms_cover {cs : List Char} (hb : '\\' ∉ cs) (hend : quoteAfter none cs = none)
    (htotal : 0 ≤ Token.depth (toggleScan none [] cs)) :
    (Report.Matches ((forms {} cs).map String.ofList)
        (Program.ofTokens (toggleScan none [] cs)).forms ∧
      ((Program.ofTokens (toggleScan none [] cs)).fault? = none ∨
        (Program.ofTokens (toggleScan none [] cs)).fault? = some .unexpectedEnd)) ∨
    ∃ inputs piece rest ds ds', (forms {} cs).map String.ofList = inputs ++ piece :: rest ∧
      Report.Matches inputs ds ∧ Program.ofText piece = ⟨ds', some .unexpectedClose⟩ ∧
      Program.ofTokens (toggleScan none [] cs) = ⟨ds ++ ds', some .unexpectedClose⟩ := by
  have hstart : AtTop {} := ⟨⟨rfl, List.not_mem_nil, by decide⟩, rfl, rfl⟩
  rcases balanced_or_stray 0 none [] cs with hbal | ⟨before, after, hcs, hquote, hbal, hdepth⟩
  · exact Or.inl ⟨forms_single hb hend hbal, Program.fault_balanced hbal⟩
  -- the text before the parenthesis is balanced, so its forms are all cut out but for the last word
  right
  have hbefore : '\\' ∉ before := by
    intro hm
    exact hb (hcs ▸ List.mem_append_left _ hm)
  have hafter : '\\' ∉ after := by
    intro hm
    exact hb (hcs ▸ List.mem_append_right _ (List.mem_cons_of_mem _ hm))
  have hzero : Token.depth (toggleScan none [] before) = 0 := by omega
  have htop := hstart.ending hbefore hquote hzero
  obtain ⟨ds, ds', hds, hin, hlast⟩ := emitted_single htop hbefore hquote hbal
  have hwhole : (ending {} before).ending (')' :: after) = ending {} cs := by
    rw [hcs, ending_append]
  have hshows : ShowsStray (ending {} before).current ((ending {} before).forms (')' :: after)) := by
    refine htop.showsStray hafter ?_ ?_
    · rw [hwhole]
      exact (quote_foldl hstart.previous hb).trans hend
    · rw [hwhole, ending_depth hstart.previous hb [], hstart.top, Int.zero_add]
      exact htotal
  -- that word and the parenthesis start the next form, and reading stops there as in the whole text
  obtain ⟨piece, rest, hpieces, hpiece⟩ := htop.ofText_stray hlast hshows
  refine ⟨(emitted {} before).map String.ofList, String.ofList piece, rest.map String.ofList, ds, ds',
    ?_, hin, hpiece, ?_⟩
  · rw [hcs, forms_append, hpieces, List.map_append, List.map_cons]
  · have hnone := Program.fault_none_of_depth hbal hzero
    rw [hcs, toggleScan_append hquote (by decide)]
    refine (Program.ofTokens_append_close hnone _).trans ?_
    rw [hds]

end Text.FormScan

/-- A program fails where one of its forms does or where it cannot be read on. -/
theorem Program.eval_error_cases {p : Program} {depth : Nat} {s : ScopeId} {a a' : Store} {e : Error}
    (h : (p.eval depth s).perform a = (.error e, a')) :
    (evalForms depth s .unspecified p.forms).perform a = (.error e, a') ∨
      ∃ fault, p.fault? = some fault ∧ e = .syntactic fault := by
  rw [Program.eval, Action.perform_bind] at h
  rcases hforms : (evalForms depth s .unspecified p.forms).perform a with ⟨e' | v, a1⟩
  · rw [hforms] at h
    cases h
    exact Or.inl rfl
  · rw [hforms] at h
    cases hfault : p.fault? with
    | none =>
      rw [hfault] at h
      cases h
    | some fault =>
      rw [hfault] at h
      cases h
      exact Or.inr ⟨fault, rfl, rfl⟩

/-- The value so far does not matter when it is not used in the end. -/
theorem evalForms_throw (depth : Nat) (s : ScopeId) (last last' : Value) (ds : List Datum)
    (e : Error) : (evalForms depth s last ds >>= fun _ => (throw e : Action Value)) =
      evalForms depth s last' ds >>= fun _ => throw e := by
  cases ds with
  | nil => rfl
  | cons d ds => rw [evalForms_cons, evalForms_cons]

theorem Program.eval_faulty (depth : Nat) (s : ScopeId) (last : Value) (ds : List Datum)
    (fault : SyntaxFault) : Program.eval depth s ⟨ds, some fault⟩ =
      evalForms depth s last ds >>= fun _ => throw (.syntactic fault) :=
  evalForms_throw depth s .unspecified last ds _

namespace Report

/-- A form that is not read to its end is reported as a failure, unless one before it is. -/
theorem evalForms_faulty {ds ds' : List Datum} {inputs rest : List String} {piece : String}
    {fault : SyntaxFault} (hin : Matches inputs ds) (hpiece : Program.ofText piece = ⟨ds', some fault⟩)
    {ses : Session} {a a' : Store} {last : Value} {e : Error} (hab : a.Alike ses.store)
    (hrun : (SmallScheme.evalForms ses.depth ses.global last (ds ++ ds') >>=
      fun _ => (throw (.syntactic fault) : Action Value)).perform a = (.error e, a'))
    (hdraw : a'.draws = a.draws) (hdone : e ≠ .tooDeep) :
    ∃ r ∈ evalForms ses (inputs ++ piece :: rest), r.result = .failure e := by
  have hdone' : (.error e : Except Error Value) ≠ .error .tooDeep := fun h =>
    hdone (Except.error.inj h)
  induction ds generalizing inputs ses a last with
  | nil =>
    -- what is left is the program of the piece, which runs as it does on its own
    cases List.map_eq_nil_iff.mp hin
    rw [List.nil_append, ← Program.eval_faulty, ← hpiece] at hrun
    obtain ⟨hresult, _, _⟩ := ses.evaluate_alike hab hrun hdraw hdone'
    exact ⟨_, List.mem_cons_self, FormResult.ofOutcome_error hresult⟩
  | cons d ds ih =>
    obtain ⟨input, inputs, rfl, hinput, hinputs⟩ := List.map_eq_cons_iff.mp hin
    rw [List.cons_append, SmallScheme.evalForms_cons, bind_assoc] at hrun
    have hrest (v : Value) : (SmallScheme.evalForms ses.depth ses.global v (ds ++ ds') >>=
        fun _ => (throw (.syntactic fault) : Action Value)).Oblivious :=
      (oblivious_evalForms _ _ v _).bind fun _ old => Simulation.sim_throw rfl
    rcases (oblivious_evalForm _ _ d).bind_cases hrest hrun hdraw with
      ⟨e', he, hform⟩ | ⟨v, a1, hform, hdraw1, hrun', hdraw2⟩
    · cases he
      obtain ⟨hresult, _, _⟩ := ses.evaluate_single hinput hab hform hdraw hdone'
      exact ⟨_, List.mem_cons_self, FormResult.ofOutcome_error hresult⟩
    · obtain ⟨_, halike, _⟩ := ses.evaluate_single hinput hab hform hdraw1 nofun
      obtain ⟨r, hr, hfail⟩ := @ih inputs hinputs (ses.evaluate input).2 a1 v halike hrun' hdraw2
      exact ⟨r, List.mem_cons_of_mem _ hr, hfail⟩

theorem passed_eq_false {report : Report} {r : FormReport} {e : Error} (hr : r ∈ report.forms)
    (hfail : r.result = .failure e) : report.passed = false := by
  have hpos : 0 < report.failed := by
    refine List.countP_pos_iff.mpr ⟨r, hr, ?_⟩
    rw [hfail]
    rfl
  rw [passed, decide_eq_false_iff_not]
  omega

end Report

/-- A program that fails is reported as a failure. Let `code` be the text without its comments, and
suppose that it has no backslash, that every quote is closed and that it does not close more lists than
it opens. Evaluate it whole in a new session, drawing no random number. If that fails, other than by an
end that comes too early, then the report shows the failure. -/
theorem failure_reported (setup : Setup) (name : String) {text : String} {code : List Char}
    (hcode : code = Text.withoutComments text.toList) (hb : '\\' ∉ code)
    (hquote : (code.foldl (fun s c => (s.step c).2) ({} : Text.FormScan)).quote = none)
    (htotal : (tokenize (String.ofList code)).count .rparen ≤
      (tokenize (String.ofList code)).count .lparen)
    {whole : Outcome Value} {after : Session} {err : Error}
    (hwhole : (Session.start setup).evaluate (String.ofList code) = (whole, after))
    (hdraw : after.store.draws = (Session.start setup).store.draws)
    (herr : whole.result = .error err) (hend : err ≠ .syntactic .unexpectedEnd)
    (hdone : err ≠ .tooDeep) :
    (Report.ofText setup name text).passed = false ∧
      ∃ entry ∈ (Report.ofText setup name text).forms, entry.result = .failure err := by
  have hclosed := Text.FormScan.quoteAfter_eq_none hb hquote
  have htokens := Token.tokenize_eq_toggleScan hb hclosed
  have hdepth : 0 ≤ Token.depth (Token.toggleScan none [] code) := by
    rw [← htokens, Token.depth]
    omega
  have hforms : Text.topLevelForms text = (Text.FormScan.forms {} code).map String.ofList := by
    rw [Text.topLevelForms, hcode]
  obtain ⟨hrun, _⟩ := Session.evaluate_start hwhole
  have hab := Store.Alike.refl (Session.start setup).store
  rw [herr, Program.ofText, htokens] at hrun
  have hentry : ∃ entry ∈ (Report.ofText setup name text).forms, entry.result = .failure err := by
    rw [Report.forms_ofText, hforms]
    rcases Text.FormScan.forms_cover hb hclosed hdepth with ⟨hin, hfault⟩ |
      ⟨inputs, piece, rest, ds, ds', hsplit, hin, hpiece, hprogram⟩
    · -- all forms are cut out, and what fails is one of them
      rcases Program.eval_error_cases hrun with hfail | ⟨fault, hf, rfl⟩
      · obtain ⟨before, entry, rest, hsplit, _, hentry, _⟩ :=
          Report.evalForms_error hin hab hfail hdraw hdone
        rw [hsplit]
        exact ⟨entry, List.mem_append_right _ List.mem_cons_self, hentry⟩
      · rcases hfault with hnone | hsome
        · rw [hnone] at hf
          cases hf
        · rw [hsome] at hf
          cases hf
          exact absurd rfl hend
    · rw [hprogram, Program.eval_faulty _ _ .unspecified] at hrun
      rw [hsplit]
      exact Report.evalForms_faulty hin hpiece hab hrun hdraw hdone
  obtain ⟨entry, hmem, hfail⟩ := hentry
  exact ⟨Report.passed_eq_false hmem hfail, entry, hmem, hfail⟩

set_option maxRecDepth 20000 in
/-- A parenthesis that closes nothing after a form that is fine. -/
theorem failure_reported_stray :
    let text := "#t) ;; a\n(b"
    let code := "#t) (b".toList
    ((Session.start { depth := 5 }).evaluate (String.ofList code)).1.result =
        .error (.syntactic .unexpectedClose) ∧
      (Report.ofText { depth := 5 } "a" text).passed = false := by
  intro text code
  have hcode : code = Text.withoutComments text.toList := by decide
  have hquote : (code.foldl (fun s c => (s.step c).2) ({} : Text.FormScan)).quote = none := by decide
  have htokens : tokenize (String.ofList code) =
      [.word "#t", .rparen, .lparen, .word "b"] := by decide
  have hforms : Program.ofText (String.ofList code) = ⟨[.bool true], some .unexpectedClose⟩ := by
    have hfirst : Datum.read [.word "#t", .rparen, .lparen, .word "b"] =
        (.ok (.bool true), [.rparen, .lparen, .word "b"]) := by rfl
    rw [Program.ofText, htokens, Program.ofTokens_ok hfirst, Program.ofTokens_close]
  have hresult : ((Session.start { depth := 5 }).evaluate (String.ofList code)).1.result =
      .error (.syntactic .unexpectedClose) := by
    rw [Session.evaluate, hforms]
    rfl
  have hdraw : ((Session.start { depth := 5 }).evaluate (String.ofList code)).2.store.draws =
      (Session.start { depth := 5 }).store.draws := by
    rw [Session.evaluate, hforms]
    rfl
  have hreported := failure_reported { depth := 5 } "a" hcode (by decide) hquote (by rw [htokens]; decide)
    (Prod.mk.eta (p := (Session.start { depth := 5 }).evaluate (String.ofList code))).symm hdraw hresult
    (by decide) (by decide)
  exact ⟨hresult, hreported.1⟩

/-- Evaluating the text in a new session fails and draws no random number, but its report shows no
failure. -/
structure Report.Hides (setup : Setup) (text : String) (err : Error) : Prop where
  result : ((Session.start setup).evaluate
    (String.ofList (Text.withoutComments text.toList))).1.result = .error err
  draws : ((Session.start setup).evaluate
    (String.ofList (Text.withoutComments text.toList))).2.store.draws =
      (Session.start setup).store.draws
  passed : ∀ name, (Report.ofText setup name text).passed = true

theorem Report.Hides.of_dropped {setup : Setup} {text : String} {err : Error} {p : Program}
    (ts : List Token) (hforms : Text.topLevelForms text = [])
    (htokens : tokenize (String.ofList (Text.withoutComments text.toList)) = ts)
    (hp : Program.ofTokens ts = p)
    (hresult : ((p.eval setup.depth (Session.start setup).global).perform
      (Session.start setup).store).1 = .error err)
    (hdraws : ((p.eval setup.depth (Session.start setup).global).perform
      (Session.start setup).store).2.draws = (Session.start setup).store.draws) :
    Report.Hides setup text err where
  result := by
    rw [Session.evaluate, Program.ofText, htokens, hp]
    exact hresult
  draws := by
    rw [Session.evaluate, Program.ofText, htokens, hp]
    exact hdraws
  passed name := by
    rw [Report.passed, Report.failed, forms_ofText, hforms]
    rfl

set_option maxRecDepth 20000 in
/-- No condition can be left out. A quote that is not closed, a parenthesis that closes nothing at the
end and a backslash before a quote all make a text be dropped that fails when it is evaluated. -/
theorem failure_hidden :
    Report.Hides { depth := 5 } "(display \"hello)" (.unbound "\"hello") ∧
      Report.Hides { depth := 5 } ")" (.syntactic .unexpectedClose) ∧
      Report.Hides { depth := 5 } "('\\\\')" (.type (.headNotProcedure "'\\\\'" "\"\\\\\"")) := by
  have hquote : Program.ofTokens [.lparen, .word "display", .word "\"hello", .rparen] =
      ⟨[.list [.symbol "display", .symbol "\"hello"]], none⟩ := by
    have hread : Datum.read [.lparen, .word "display", .word "\"hello", .rparen] =
        (.ok (.list [.symbol "display", .symbol "\"hello"]), []) := by rfl
    rw [Program.ofTokens_ok hread, Program.ofTokens_nil]
  have hbackslash : Program.ofTokens [.lparen, .word "'\\\\'", .rparen] =
      ⟨[.list [.symbol "'\\\\'"]], none⟩ := by
    have hread : Datum.read [.lparen, .word "'\\\\'", .rparen] =
        (.ok (.list [.symbol "'\\\\'"]), []) := by rfl
    rw [Program.ofTokens_ok hread, Program.ofTokens_nil]
  refine ⟨?_, ?_, ?_⟩
  · exact .of_dropped _ (by decide) (by decide) hquote rfl rfl
  · exact .of_dropped _ (by decide) (by decide) (Program.ofTokens_close []) rfl rfl
  · exact .of_dropped _ (by decide) (by decide) hbackslash rfl rfl

end SmallScheme
