import SmallScheme.Proofs.Escapes

/-! What is left of a text without its comments.

It is one line of code, without a comment and without blanks at its ends. Such a line is left as it is,
so that comments are removed once and for all, and lines that are joined by blanks are one line. -/
namespace SmallScheme.Text

theorem trim_isInfix (cs : List Char) : trim cs <:+: cs := by
  obtain ⟨lead, trail, hcs, _, _⟩ := exists_trim cs
  exact ⟨lead, trail, hcs.symm⟩

/-- The text has no blanks at its ends. -/
structure Trimmed (cs : List Char) : Prop where
  first : ∀ c ∈ cs.head?, isBlank c = false
  last : ∀ c ∈ cs.getLast?, isBlank c = false

theorem isBlank_head_dropWhile (cs : List Char) :
    ∀ c ∈ (cs.dropWhile isBlank).head?, isBlank c = false := by
  intro c hc
  have h := List.head?_dropWhile_not isBlank cs
  rw [Option.mem_def.mp hc] at h
  simpa using h

theorem trimmed_trim (cs : List Char) : Trimmed (trim cs) where
  first := by
    intro c hc
    rw [trim, List.head?_reverse] at hc
    -- what is cut off at the end leaves the first character where it was
    obtain ⟨trail, htrail⟩ := List.dropWhile_suffix (l := (cs.dropWhile isBlank).reverse) isBlank
    have hmem : c ∈ (trail ++ (cs.dropWhile isBlank).reverse.dropWhile isBlank).getLast? :=
      List.mem_getLast?_append_of_mem_getLast? hc
    rw [htrail, List.getLast?_reverse] at hmem
    exact isBlank_head_dropWhile cs c hmem
  last := by
    intro c hc
    rw [trim, List.getLast?_reverse] at hc
    exact isBlank_head_dropWhile _ c hc

theorem Trimmed.trim_eq {cs : List Char} (h : Trimmed cs) : trim cs = cs := trim_eq_self h.first h.last

/-- The text is code on one line: it has no comment and no line break. -/
structure CodeLine (cs : List Char) : Prop where
  comment : ¬ [';', ';'] <:+: cs
  newline : '\n' ∉ cs

theorem CodeLine.nil : CodeLine [] := ⟨by decide, List.not_mem_nil⟩

theorem CodeLine.mono {cs ds : List Char} (h : CodeLine ds) (hin : cs <:+: ds) : CodeLine cs :=
  ⟨fun hc => h.comment (hc.trans hin), fun hn => h.newline (hin.subset hn)⟩

/-- Up to its comment a line begins as it does. -/
theorem beforeComment_isPrefix (cs : List Char) : beforeComment cs <+: cs := by
  fun_induction beforeComment cs with
  | case1 => exact List.nil_prefix
  | case2 => exact List.nil_prefix
  | case3 c cs hc ih => exact List.cons_prefix_cons.mpr ⟨rfl, ih⟩

theorem comment_beforeComment (cs : List Char) : ¬ [';', ';'] <:+: beforeComment cs := by
  fun_induction beforeComment cs with
  | case1 => decide
  | case2 => decide
  | case3 c cs hc ih =>
    intro hin
    rcases List.infix_cons_iff.mp hin with hfirst | hin
    · -- two semicolons at this place would have been the end of the line
      obtain ⟨rfl, hnext⟩ := List.cons_prefix_cons.mp hfirst
      obtain ⟨rest, hrest⟩ := hnext.trans (beforeComment_isPrefix cs)
      exact hc rest rfl hrest.symm
    · exact ih hin

theorem beforeComment_eq_self {cs : List Char} (h : ¬ [';', ';'] <:+: cs) : beforeComment cs = cs := by
  have hself : beforeComment (cs ++ []) = cs ++ beforeComment [] := beforeComment_append h nofun
  rwa [List.append_nil, beforeComment, List.append_nil] at hself

/-- A blank between two texts keeps semicolons apart. -/
theorem CodeLine.append_blank {cs ds : List Char} (hc : CodeLine cs) (hd : CodeLine ds) :
    CodeLine (cs ++ ' ' :: ds) where
  comment := by
    have hblank : ∀ c ∈ (' ' :: ds).head?, c ≠ ';' := by
      rintro c ⟨⟩
      decide
    have hself : beforeComment (cs ++ ' ' :: ds) = cs ++ ' ' :: ds := by
      rw [beforeComment_append hc.comment hblank, beforeComment_cons (by decide),
        beforeComment_eq_self hd.comment]
    rw [← hself]
    exact comment_beforeComment _
  newline := by
    intro hmem
    rcases List.mem_append.mp hmem with hmem | hmem
    · exact hc.newline hmem
    · rcases List.mem_cons.mp hmem with hmem | hmem
      · cases hmem
      · exact hd.newline hmem

theorem CodeLine.joined {parts : List (List Char)} (h : ∀ cs ∈ parts, CodeLine cs) :
    CodeLine ([' '].intercalate parts) := by
  induction parts with
  | nil => exact .nil
  | cons cs parts ih =>
    obtain ⟨hcs, hparts⟩ := List.forall_mem_cons.mp h
    cases parts with
    | nil => rwa [List.intercalate_singleton]
    | cons ds parts =>
      rw [List.intercalate_cons_cons, List.append_assoc]
      exact hcs.append_blank (ih hparts)

theorem joined_ne_nil {cs : List Char} (h : cs ≠ []) (parts : List (List Char)) :
    [' '].intercalate (cs :: parts) ≠ [] := by
  cases parts with
  | nil => rwa [List.intercalate_singleton]
  | cons ds parts =>
    rw [List.intercalate_cons_cons, List.append_assoc]
    exact List.append_ne_nil_of_left_ne_nil h _

theorem Trimmed.joined {parts : List (List Char)} (h : ∀ cs ∈ parts, cs ≠ [] ∧ Trimmed cs) :
    Trimmed ([' '].intercalate parts) := by
  induction parts with
  | nil => exact ⟨nofun, nofun⟩
  | cons cs parts ih =>
    obtain ⟨⟨hne, hcs⟩, hparts⟩ := List.forall_mem_cons.mp h
    cases parts with
    | nil => rwa [List.intercalate_singleton]
    | cons ds parts =>
      have hrest : [' '].intercalate (ds :: parts) ≠ [] :=
        joined_ne_nil (hparts ds List.mem_cons_self).1 parts
      rw [List.intercalate_cons_cons, List.append_assoc]
      constructor
      · rw [List.head?_append_of_ne_nil _ hne]
        exact hcs.first
      · rw [← List.append_assoc, List.getLast?_append_of_ne_nil _ hrest]
        exact (ih hparts).last

/-- Without its comments a text is one line of code. -/
theorem codeLine_withoutComments (text : List Char) : CodeLine (withoutComments text) := by
  refine CodeLine.mono (CodeLine.joined ?_) (trim_isInfix _)
  intro cs hcs
  obtain ⟨line, hline, rfl⟩ := List.mem_map.mp hcs
  obtain ⟨whole, hwhole, rfl⟩ := List.mem_map.mp (List.mem_of_mem_filter hline)
  have hbefore : trim (beforeComment (trim whole)) <:+: beforeComment (trim whole) := trim_isInfix _
  constructor
  · exact fun hin => comment_beforeComment _ (hin.trans hbefore)
  · intro hmem
    -- the line was cut out at line breaks, and nothing was added to it
    have hline : beforeComment (trim whole) <:+: whole :=
      (beforeComment_isPrefix _).isInfix.trans (trim_isInfix whole)
    have hcut := not_cut_of_mem_pieces hwhole '\n' ((hbefore.trans hline).subset hmem)
    cases hcut

theorem trimmed_withoutComments (text : List Char) : Trimmed (withoutComments text) := trimmed_trim _

/-- A line of code without blanks at its ends is left as it is. -/
theorem CodeLine.withoutComments_eq {cs : List Char} (h : CodeLine cs) (ht : Trimmed cs) :
    withoutComments cs = cs := by
  by_cases hne : cs = []
  · rw [hne]
    rfl
  · exact withoutComments_eq_self h.newline (beforeComment_eq_self h.comment) hne ht.trim_eq

end SmallScheme.Text
