import SmallScheme.Proofs.Comments
import SmallScheme.Proofs.Coverage

/-! The forms of a text as parts of it.

Nothing of a line of code is lost but blanks between its forms and a tail that is not balanced, nothing
comes twice and nothing changes its place. That holds whatever the text is like, also where more lists
are closed than opened or quotes stay open. For the scan starts afresh with each form, and what it has
come to at any time depends on nothing before the form that it is in. So a form is cut out again when it
stands alone, and forms that are joined by blanks are cut at the same places. -/
namespace SmallScheme

namespace Text

/-- The text consists of the forms in their order and of blanks before, between and after them. The
forms are not empty and have no blanks at their ends. -/
inductive LaidOut : (forms : List (List Char)) → (text : List Char) → Prop where
  | blanks {gap : List Char} : (∀ c ∈ gap, isBlank c = true) → LaidOut [] gap
  | form {gap form rest : List Char} {forms : List (List Char)} : (∀ c ∈ gap, isBlank c = true) →
      form ≠ [] → Trimmed form → LaidOut forms rest → LaidOut (form :: forms) (gap ++ (form ++ rest))

namespace LaidOut
variable {cs ds gap f : List Char} {fs gs : List (List Char)}

theorem blanks_append (hgap : ∀ c ∈ gap, isBlank c = true) (h : LaidOut fs cs) :
    LaidOut fs (gap ++ cs) := by
  cases h with
  | blanks hcs => exact .blanks (List.forall_mem_append.mpr ⟨hgap, hcs⟩)
  | form hg hne ht hrest =>
    rw [← List.append_assoc]
    exact .form (List.forall_mem_append.mpr ⟨hgap, hg⟩) hne ht hrest

theorem append (h : LaidOut fs cs) (h' : LaidOut gs ds) : LaidOut (fs ++ gs) (cs ++ ds) := by
  induction h with
  | blanks hgap => exact h'.blanks_append hgap
  | form hgap hne ht _ ih =>
    rw [List.append_assoc, List.append_assoc]
    exact .form hgap hne ht ih

theorem of_mem (h : LaidOut fs cs) (hf : f ∈ fs) : f ≠ [] ∧ Trimmed f ∧ f <:+: cs := by
  induction h with
  | blanks => cases hf
  | @form gap form rest forms _ hne ht _ ih =>
    rcases List.mem_cons.mp hf with rfl | hf
    · exact ⟨hne, ht, gap, rest, List.append_assoc _ _ _⟩
    · obtain ⟨hne', ht', hin⟩ := ih hf
      exact ⟨hne', ht', hin.trans ((List.suffix_append form rest).trans
        (List.suffix_append gap _)).isInfix⟩

end LaidOut

namespace FormScan
variable {s : FormScan} {c : Char}

/-- What the scan does with a character `c`. It goes on with the form; or a list that is opened outside
of lists and literals ends the form before it; or the parenthesis that closes the last list or a blank
outside of lists ends the form and leaves nothing behind. -/
inductive Steps (s : FormScan) (c : Char) : List (List Char) × FormScan → Prop where
  | goes {depth : Int} {quote : Option Char} :
      (s.quote = none → s.depth = 0 → isBlank c = false) →
      (quote = none → depth = 0 → isBlank c = false) →
        Steps s c ([], ⟨c :: s.current, depth, quote, some c⟩)
  | opens : s.quote = none → s.depth = 0 → c = '(' →
      Steps s c (finish s.current, ⟨['('], 1, none, some '('⟩)
  | closes : s.quote = none → s.depth = 1 → c = ')' →
      Steps s c (finish (c :: s.current), ⟨[], 0, none, some c⟩)
  | blank : s.quote = none → s.depth = 0 → isBlank c = true →
      Steps s c (finish (c :: s.current), ⟨[], 0, none, some c⟩)

theorem steps (s : FormScan) (c : Char) : Steps s c (s.step c) := by
  unfold step
  dsimp only
  -- a quote that counts comes first, and it is part of the form whether it opens or closes a literal
  split
  · next hquote =>
    have hc : isBlank c = false :=
      isBlank_of_not_isDelimiter (isDelimiter_of_isQuote ((Bool.and_eq_true _ _).mp hquote).1)
    exact .goes (fun _ _ => hc) fun _ _ => hc
  split
  · next hopen =>
    have hsome : s.quote ≠ none := Option.isSome_iff_ne_none.mp hopen
    exact .goes (fun hnone => absurd hnone hsome) fun hnone => absurd hnone hsome
  -- from here on the scan is outside of literals, and only the depth decides
  next hopen =>
  have hq : s.quote = none := Option.not_isSome_iff_eq_none.mp hopen
  rw [hq]
  split
  · next hc =>
    have hblank : isBlank c = false := by rw [hc]; decide
    split
    · next hd =>
      rw [hc]
      exact .opens hq hd rfl
    · exact .goes (fun _ _ => hblank) fun _ _ => hblank
  split
  · next hc =>
    have hblank : isBlank c = false := by rw [hc]; decide
    split
    · next hd => exact .closes hq hd hc
    · exact .goes (fun _ _ => hblank) fun _ _ => hblank
  split
  · next hend =>
    obtain ⟨hd, hblank⟩ := (Bool.and_eq_true _ _).mp hend
    have hzero : s.depth = 0 := of_decide_eq_true hd
    rw [hzero]
    exact .blank hq hzero hblank
  · next hgoes =>
    have hblank : s.depth = 0 → isBlank c = false := by
      intro hd
      simpa [hd] using hgoes
    exact .goes (fun _ => hblank) fun _ => hblank

theorem laidOut_finish (current : List Char) : LaidOut (finish current) current.reverse := by
  obtain ⟨lead, trail, hcs, hlead, htrail⟩ := exists_trim current.reverse
  unfold finish
  dsimp only
  split
  · next hnil =>
    rw [List.isEmpty_iff.mp hnil, List.append_nil] at hcs
    rw [hcs]
    exact .blanks (List.forall_mem_append.mpr ⟨hlead, htrail⟩)
  · next hne =>
    have hform : trim current.reverse ≠ [] := fun hnil => hne (List.isEmpty_iff.mpr hnil)
    have hlaid := LaidOut.form hlead hform (trimmed_trim _) (.blanks htrail)
    rwa [← List.append_assoc, ← hcs] at hlaid

/-- A step moves characters from the form so far into the forms that end, and no other way. -/
theorem exists_laidOut_step (s : FormScan) (c : Char) (cs : List Char) :
    ∃ front, LaidOut (s.step c).1 front ∧
      s.current.reverse ++ c :: cs = front ++ ((s.step c).2.current.reverse ++ cs) := by
  have hsteps := steps s c
  generalize s.step c = out at hsteps
  have hnext : s.current.reverse ++ c :: cs = (c :: s.current).reverse ++ cs := by
    rw [List.reverse_cons, List.append_assoc, List.singleton_append]
  cases hsteps with
  | goes => exact ⟨[], .blanks (List.forall_mem_nil _), hnext⟩
  | opens _ _ hc =>
    subst hc
    exact ⟨s.current.reverse, laidOut_finish _, rfl⟩
  | closes => exact ⟨(c :: s.current).reverse, laidOut_finish _, hnext⟩
  | blank => exact ⟨(c :: s.current).reverse, laidOut_finish _, hnext⟩

/-- Between forms it makes no difference what was there before, as long as it protects nothing. -/
theorem forms_fresh {p q : Option Char} (hp : p ≠ some '\\') (hq : q ≠ some '\\') (cs : List Char) :
    forms ⟨[], 0, none, p⟩ cs = forms ⟨[], 0, none, q⟩ cs := by
  cases cs with
  | nil => rfl
  | cons c cs =>
    have hp' : (p != some '\\') = true := bne_iff_ne.mpr hp
    have hq' : (q != some '\\') = true := bne_iff_ne.mpr hq
    simp only [forms, step, hp', hq']

/-- The scan has come to where it is from the start of the form: a scan that starts there comes to the
same. The form does not start with a blank, and if it could end here then not with one either. -/
structure Settled (s : FormScan) : Prop where
  resumes : ∀ rest, forms {} (s.current.reverse ++ rest) = s.forms rest
  empty : s.current = [] → s.quote = none ∧ s.depth = 0
  first : ∀ c ∈ s.current.getLast?, isBlank c = false
  last : s.quote = none → s.depth = 0 → ∀ c ∈ s.current.head?, isBlank c = false

namespace Settled

theorem fresh {p : Option Char} (hp : p ≠ some '\\') : Settled ⟨[], 0, none, p⟩ where
  resumes rest := forms_fresh (by decide) hp rest
  empty _ := ⟨rfl, rfl⟩
  first := nofun
  last _ _ := nofun

theorem opening : Settled ⟨['('], 1, none, some '('⟩ where
  resumes _ := rfl
  empty h := by cases h
  first := by
    rintro c ⟨⟩
    decide
  last _ h := by cases h

/-- A character that goes on with the form may start it, and may be its last one. -/
theorem goes {depth : Int} {quote : Option Char} (h : s.Settled)
    (hstart : s.quote = none → s.depth = 0 → isBlank c = false)
    (hend : quote = none → depth = 0 → isBlank c = false)
    (hforms : ∀ rest, s.forms (c :: rest) = forms ⟨c :: s.current, depth, quote, some c⟩ rest) :
    Settled ⟨c :: s.current, depth, quote, some c⟩ where
  resumes rest := by
    rw [List.reverse_cons, List.append_assoc, List.singleton_append, h.resumes, hforms]
  empty hnil := by cases hnil
  first := by
    have hfirst := h.first
    cases hcur : s.current with
    | nil =>
      obtain ⟨hq, hd⟩ := h.empty hcur
      rintro d ⟨⟩
      exact hstart hq hd
    | cons d current =>
      rw [hcur] at hfirst
      rwa [List.getLast?_cons_cons]
  last hq hd := by
    rintro d ⟨⟩
    exact hend hq hd

protected theorem step (h : s.Settled) (c : Char) : (s.step c).2.Settled := by
  have hforms (rest : List Char) : s.forms (c :: rest) = (s.step c).1 ++ (s.step c).2.forms rest :=
    rfl
  have hsteps := steps s c
  generalize s.step c = out at hforms hsteps
  cases hsteps with
  | goes hstart hend => exact h.goes hstart hend hforms
  | opens => exact opening
  | closes _ _ hc =>
    subst hc
    exact fresh (by decide)
  | blank _ _ hc =>
    -- a backslash is no blank, so nothing is protected after the form
    refine fresh fun hb => ?_
    rw [Option.some.inj hb] at hc
    cases hc

end Settled

/-- The form is cut out when it stands alone, and also in front of a blank, with which the scan starts
afresh. -/
structure Detached (form : List Char) : Prop where
  alone : forms {} form = [form]
  before : ∀ rest, forms {} (form ++ ' ' :: rest) = form :: forms {} rest

theorem forms_blank (p : Option Char) (rest : List Char) :
    forms ⟨[], 0, none, p⟩ (' ' :: rest) = forms {} rest :=
  forms_fresh (p := some ' ') (q := none) (by decide) (by decide) rest

namespace Settled

theorem finish_current (h : s.Settled) (hlast : ∀ c ∈ s.current.head?, isBlank c = false) :
    finish s.current = [] ∨ finish s.current = [s.current.reverse] := by
  by_cases hnil : s.current = []
  · rw [hnil]
    exact Or.inl rfl
  · exact Or.inr (finish_eq hnil h.first hlast)

/-- Outside of lists and literals the form so far could end. -/
theorem detached (h : s.Settled) (hq : s.quote = none) (hd : s.depth = 0) :
    ∀ f ∈ finish s.current, Detached f := by
  have hlast := h.last hq hd
  rcases h.finish_current hlast with hfinish | hfinish
  · rw [hfinish]
    exact List.forall_mem_nil _
  rw [hfinish]
  intro f hf
  rw [List.mem_singleton.mp hf]
  constructor
  · have hend := h.resumes []
    rwa [List.append_nil, forms, if_pos hd, hfinish] at hend
  · intro rest
    have hblank : s.step ' ' = (finish (' ' :: s.current), ⟨[], 0, none, some ' '⟩) := by
      simp [step, isQuote, hq, hd, isBlank]
    rw [h.resumes, forms, hblank, finish_cons_blank (by decide) h.first hlast, hfinish]
    exact congrArg _ (forms_fresh (by decide) (by decide) rest)

/-- The parenthesis that closes the last list ends the form. -/
theorem detached_close (h : s.Settled) (hq : s.quote = none) (hd : s.depth = 1) :
    ∀ f ∈ finish (')' :: s.current), Detached f := by
  have hclose (rest : List Char) : s.forms (')' :: rest) =
      finish (')' :: s.current) ++ forms ⟨[], 0, none, some ')'⟩ rest := by
    have hstep : s.step ')' = (finish (')' :: s.current), ⟨[], 0, none, some ')'⟩) := by
      simp [step, isQuote, hq, hd]
    rw [forms, hstep]
  have hfinish : finish (')' :: s.current) = [s.current.reverse ++ [')']] := by
    -- the parenthesis that opened the list is part of the form
    have hne : s.current ≠ [] := by
      intro hnil
      have hzero := (h.empty hnil).2
      omega
    have hfirst : ∀ c ∈ (')' :: s.current).getLast?, isBlank c = false := by
      obtain ⟨d, current, hcur⟩ := List.exists_cons_of_ne_nil hne
      rw [hcur, List.getLast?_cons_cons, ← hcur]
      exact h.first
    rw [← List.reverse_cons]
    refine finish_eq (List.cons_ne_nil _ _) hfirst ?_
    rintro c ⟨⟩
    decide
  rw [hfinish]
  intro f hf
  rw [List.mem_singleton.mp hf]
  constructor
  · rw [h.resumes, hclose, hfinish]
    rfl
  · intro rest
    rw [List.append_assoc, List.singleton_append, h.resumes, hclose, hfinish, forms_blank]
    rfl

/-- Every form that the scan finds on its way is detached. -/
theorem step_detached (h : s.Settled) (c : Char) : ∀ f ∈ (s.step c).1, Detached f := by
  have hsteps := steps s c
  generalize s.step c = out at hsteps
  cases hsteps with
  | goes => exact List.forall_mem_nil _
  | opens hq hd => exact h.detached hq hd
  | closes hq hd hc =>
    subst hc
    exact h.detached_close hq hd
  | blank hq hd hc =>
    rw [finish_cons_blank hc h.first (h.last hq hd)]
    exact h.detached hq hd

end Settled

/-- Forms that are cut out in front of a blank are cut out of what they are joined to as well. -/
theorem forms_joined {fs gs : List (List Char)} (hfs : ∀ f ∈ fs, Detached f)
    (hgs : forms {} ([' '].intercalate gs) = gs) :
    forms {} ([' '].intercalate (fs ++ gs)) = fs ++ gs := by
  induction fs with
  | nil => exact hgs
  | cons f fs ih =>
    obtain ⟨hf, hfs⟩ := List.forall_mem_cons.mp hfs
    have hrest := ih hfs
    rw [List.cons_append]
    generalize fs ++ gs = rest at hrest
    cases rest with
    | nil =>
      rw [List.intercalate_singleton]
      exact hf.alone
    | cons g rest =>
      rw [List.intercalate_cons_cons, List.append_assoc, List.singleton_append, hf.before, hrest]

/-- The forms that are found from here on are found again when they are joined, and each of them when it
stands alone. The text must not end with a blank, which could be inside of a literal that is open. -/
theorem Settled.forms_again {cs : List Char} (h : s.Settled)
    (hlast : ∀ c ∈ (s.current.reverse ++ cs).getLast?, isBlank c = false) :
    forms {} ([' '].intercalate (s.forms cs)) = s.forms cs ∧
      ∀ f ∈ s.forms cs, forms {} f = [f] := by
  -- the form so far changes with every character, and being settled is what each step keeps
  induction cs generalizing s with
  | nil =>
    rw [List.append_nil, List.getLast?_reverse] at hlast
    have hend := h.resumes []
    rw [List.append_nil] at hend
    by_cases hd : s.depth = 0
    · rw [forms, if_pos hd] at hend
      rw [forms, if_pos hd]
      rcases h.finish_current hlast with hfinish | hfinish
      · rw [hfinish]
        exact ⟨rfl, List.forall_mem_nil _⟩
      · rw [hfinish] at hend
        rw [hfinish, List.intercalate_singleton]
        refine ⟨hend, fun f hf => ?_⟩
        rw [List.mem_singleton.mp hf]
        exact hend
    · -- what is left open is no form
      rw [forms, if_neg hd]
      exact ⟨rfl, List.forall_mem_nil _⟩
  | cons c cs ih =>
    have hdetached := h.step_detached c
    obtain ⟨front, _, htext⟩ := exists_laidOut_step s c cs
    have hrest : ∀ d ∈ ((s.step c).2.current.reverse ++ cs).getLast?, isBlank d = false := by
      intro d hd
      apply hlast
      rw [htext]
      exact List.mem_getLast?_append_of_mem_getLast? hd
    obtain ⟨hjoined, halone⟩ := ih (h.step c) hrest
    rw [forms]
    refine ⟨forms_joined hdetached hjoined, fun f hf => ?_⟩
    rcases List.mem_append.mp hf with hf | hf
    · exact (hdetached f hf).alone
    · exact halone f hf

/-- The form so far and the rest of the text fall into forms, blanks and a tail. The tail has no forms,
and it is empty if the depth is zero at the end. -/
theorem Settled.exists_laidOut (h : s.Settled) (cs : List Char) :
    ∃ front tail, s.current.reverse ++ cs = front ++ tail ∧ LaidOut (s.forms cs) front ∧
      forms {} tail = [] ∧ ((s.ending cs).depth = 0 → tail = []) := by
  induction cs generalizing s with
  | nil =>
    rw [List.append_nil, forms]
    by_cases hd : s.depth = 0
    · rw [if_pos hd]
      exact ⟨_, [], (List.append_nil _).symm, laidOut_finish _, rfl, fun _ => rfl⟩
    · -- the form so far becomes the tail, and a scan of it alone ends inside of the same lists
      rw [if_neg hd]
      have hend := h.resumes []
      rw [List.append_nil, forms, if_neg hd] at hend
      exact ⟨[], _, rfl, .blanks (List.forall_mem_nil _), hend, fun hzero => absurd hzero hd⟩
  | cons c cs ih =>
    obtain ⟨start, hstart, htext⟩ := exists_laidOut_step s c cs
    obtain ⟨front, tail, hcs, hlaid, htail, hzero⟩ := ih (h.step c)
    refine ⟨start ++ front, tail, ?_, hstart.append hlaid, htail, hzero⟩
    rw [htext, hcs, List.append_assoc]

/-- A line of code falls into its forms, blanks and a tail. -/
theorem exists_laidOut (code : List Char) :
    ∃ front tail, code = front ++ tail ∧ LaidOut (forms {} code) front ∧ forms {} tail = [] ∧
      ((ending {} code).depth = 0 → tail = []) :=
  Settled.exists_laidOut (.fresh (by decide)) code

/-- The forms of a line of code are found again. -/
theorem forms_again {code : List Char} (h : Trimmed code) :
    forms {} ([' '].intercalate (forms {} code)) = forms {} code ∧
      ∀ f ∈ forms {} code, forms {} f = [f] :=
  Settled.forms_again (.fresh (by decide)) h.last

/-- The forms of a line of code are lines of code. -/
theorem codeLine_of_mem {code f : List Char} (h : CodeLine code) (hf : f ∈ forms {} code) :
    f ≠ [] ∧ Trimmed f ∧ CodeLine f := by
  obtain ⟨front, tail, rfl, hlaid, _, _⟩ := exists_laidOut code
  obtain ⟨hne, htrimmed, hin⟩ := hlaid.of_mem hf
  exact ⟨hne, htrimmed, h.mono (hin.trans (List.prefix_append front tail).isInfix)⟩

end FormScan

theorem map_toList_ofList (fs : List (List Char)) :
    (fs.map String.ofList).map String.toList = fs := by
  have hself : String.toList ∘ String.ofList = id := funext fun cs => String.toList_ofList
  rw [List.map_map, hself, List.map_id]

theorem ofList_joined (fs : List (List Char)) :
    " ".intercalate (fs.map String.ofList) = String.ofList ([' '].intercalate fs) := by
  have hlist : (" ".intercalate (fs.map String.ofList)).toList = [' '].intercalate fs := by
    rw [String.toList_intercalate, map_toList_ofList]
    rfl
  rw [← hlist, String.ofList_toList]

/-- Removing comments leaves forms as they are. -/
theorem topLevelForms_of_code {cs : List Char} (h : CodeLine cs) (ht : Trimmed cs) :
    topLevelForms (String.ofList cs) = (FormScan.forms {} cs).map String.ofList := by
  rw [topLevelForms, String.toList_ofList, h.withoutComments_eq ht]

end Text

/-- Cutting a text into forms loses nothing but blanks and an unbalanced tail. Without its comments the
text consists of its forms in their order, which are not empty and have no blanks at their ends, of
blanks before, between and after them, and of a tail. The tail has no forms, and there is none if the
depth of lists is zero when the scan has come to the end. The text without its comments has indeed no
comment any more, and no line break. -/
theorem topLevelForms_partition (text : String) :
    let code := Text.withoutComments text.toList
    (∃ front tail, code = front ++ tail ∧
      Text.LaidOut ((Text.topLevelForms text).map String.toList) front ∧
      Text.FormScan.forms {} tail = [] ∧
      ((Text.FormScan.ending {} code).depth = 0 → tail = [])) ∧
    ¬ [';', ';'] <:+: code ∧ '\n' ∉ code := by
  intro code
  have hcode : Text.CodeLine code := Text.codeLine_withoutComments text.toList
  have hforms : (Text.topLevelForms text).map String.toList = Text.FormScan.forms {} code :=
    Text.map_toList_ofList _
  refine ⟨?_, hcode.comment, hcode.newline⟩
  rw [hforms]
  exact Text.FormScan.exists_laidOut code

/-- A literal with a blank and a parenthesis, a comment, a parenthesis that closes nothing with the one
that makes up for it, and a list that stays open. -/
theorem topLevelForms_partition_malformed :
    let text := "a(b 'c )') ;; d\n ) e( f (g"
    let forms := ["a", "(b 'c )')", ") e(", "f"]
    let code := "a(b 'c )') ) e( f (g".toList
    Text.topLevelForms text = forms ∧ (Text.FormScan.ending {} code).depth = 1 ∧
      ∃ front tail, code = front ++ tail ∧ Text.LaidOut (forms.map String.toList) front ∧
        Text.FormScan.forms {} tail = [] := by
  intro text forms code
  have hforms : Text.topLevelForms text = forms := by decide
  have hcode : Text.withoutComments text.toList = code := by decide
  have hpartition := topLevelForms_partition text
  rw [hforms, hcode] at hpartition
  obtain ⟨⟨front, tail, htext, hlaid, htail, _⟩, _⟩ := hpartition
  exact ⟨hforms, by decide, front, tail, htext, hlaid, htail⟩

/-- Cutting a text into forms gives forms that are cut no further and that stay apart when they are
joined by blanks: cutting the joined forms gives the forms again, and cutting one of them gives that
one. -/
theorem topLevelForms_again (text : String) :
    Text.topLevelForms (" ".intercalate (Text.topLevelForms text)) = Text.topLevelForms text ∧
      ∀ form ∈ Text.topLevelForms text, Text.topLevelForms form = [form] := by
  let fs := Text.FormScan.forms {} (Text.withoutComments text.toList)
  have htop : Text.topLevelForms text = fs.map String.ofList := rfl
  have hfs (f : List Char) (hf : f ∈ fs) : f ≠ [] ∧ Text.Trimmed f ∧ Text.CodeLine f :=
    Text.FormScan.codeLine_of_mem (Text.codeLine_withoutComments text.toList) hf
  have hagain : Text.FormScan.forms {} ([' '].intercalate fs) = fs ∧
      ∀ f ∈ fs, Text.FormScan.forms {} f = [f] :=
    Text.FormScan.forms_again (Text.trimmed_withoutComments text.toList)
  constructor
  · have hcode : Text.CodeLine ([' '].intercalate fs) := .joined fun f hf => (hfs f hf).2.2
    have htrimmed : Text.Trimmed ([' '].intercalate fs) :=
      .joined fun f hf => ⟨(hfs f hf).1, (hfs f hf).2.1⟩
    rw [htop, Text.ofList_joined, Text.topLevelForms_of_code hcode htrimmed, hagain.1]
  · intro form hform
    obtain ⟨f, hf, rfl⟩ := List.mem_map.mp hform
    obtain ⟨_, htrimmed, hcode⟩ := hfs f hf
    rw [Text.topLevelForms_of_code hcode htrimmed, hagain.2 f hf]
    rfl

/-- A parenthesis that closes nothing, a comment, a line break of two characters, a backslash before a
quote and a quote that stays open. -/
theorem topLevelForms_again_malformed :
    let text := ") x(\\ ;; c\r\n'a\\' (b'(c)\"d e"
    let forms := [") x(\\", "'a\\' (b'", "(c)", "\"d e"]
    Text.topLevelForms text = forms ∧ Text.topLevelForms (" ".intercalate forms) = forms ∧
      ∀ form ∈ forms, Text.topLevelForms form = [form] := by
  intro text forms
  have hforms : Text.topLevelForms text = forms := by decide
  have hagain := topLevelForms_again text
  rw [hforms] at hagain
  exact ⟨hforms, hagain⟩

end SmallScheme
