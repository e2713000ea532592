import SmallScheme.Proofs.Cutting
import SmallScheme.Proofs.FileTree
import SmallScheme.Proofs.Splitting

/-! Backslashes in literals, as the tokens have them and as the cutting of forms has them.

For tokens a backslash and the character after it are a pair, so a backslash that is itself
protected protects nothing. The scan for forms looks at the character before a quote only. Inside of
a literal that makes no difference, since every quote that the literal holds has its backslash right
before it. It does make one at the end: a literal that ends with a protected backslash is not closed
for the scan. -/
namespace SmallScheme

namespace Text

theorem beforeComment_cons {c : Char} (hc : c ≠ ';') (cs : List Char) :
    beforeComment (c :: cs) = c :: beforeComment cs := by
  rw [beforeComment]
  rintro _ rfl
  exact absurd rfl hc

/-- A text without two semicolons in a row stays, whatever follows that is not a third one. -/
theorem beforeComment_append {cs rest : List Char} (h : ¬ [';', ';'] <:+: cs)
    (hrest : ∀ c ∈ rest.head?, c ≠ ';') :
    beforeComment (cs ++ rest) = cs ++ beforeComment rest := by
  induction cs with
  | nil => rfl
  | cons c cs ih =>
    have htail := ih fun hin => h (hin.trans (List.suffix_cons c cs).isInfix)
    by_cases hc : c = ';'
    · subst hc
      have hnext : ∀ d ∈ (cs ++ rest).head?, d ≠ ';' := by
        cases cs with
        | nil => exact hrest
        | cons d cs =>
          rintro e ⟨⟩ rfl
          exact h ⟨[], cs, rfl⟩
      rw [List.cons_append, beforeComment, htail, List.cons_append]
      intro more _ hmore
      exact hnext ';' (by rw [hmore]; rfl) rfl
    · rw [List.cons_append, beforeComment_cons hc, htail, List.cons_append]

/-- A line of code without a comment and without blanks at its ends is left as it is. -/
theorem withoutComments_eq_self {cs : List Char} (hline : '\n' ∉ cs)
    (hcomment : beforeComment cs = cs) (hne : cs ≠ []) (htrim : trim cs = cs) :
    withoutComments cs = cs := by
  have hcut : ∀ c ∈ cs, decide (c = '\n') = false := by
    intro c hc
    exact decide_eq_false fun he => hline (he ▸ hc)
  have hlines : lines cs = [cs] := pieces_uncut hcut
  simp [withoutComments, hlines, htrim, hcomment, hne, List.intercalate]

/-- Text without the quote and without backslashes can stand in a literal. -/
theorem LiteralBody.of_forall {q : Char} {cs : List Char} (h : ∀ c ∈ cs, c ≠ q ∧ c ≠ '\\') :
    LiteralBody q cs := by
  induction cs with
  | nil => exact .nil
  | cons c cs ih =>
    obtain ⟨⟨hc, hb⟩, hcs⟩ := List.forall_mem_cons.mp h
    exact .plain hc hb (ih hcs)

namespace FormScan
variable {s : FormScan} {q c : Char}

/-- Inside of a literal only a quote like the one that opened it has an effect, and only if no
backslash stands right before it. -/
theorem step_inside (hs : s.quote = some q) (h : c ≠ q ∨ s.previous = some '\\') :
    s.step c = ([], { s with current := c :: s.current, previous := some c }) := by
  have hopen : s.quote.isSome = true := by rw [hs]; rfl
  unfold step
  split
  · next hquote =>
    obtain ⟨_, hprev⟩ := (Bool.and_eq_true _ _).mp hquote
    have hc : q ≠ c := by
      rcases h with hc | hp
      · exact Ne.symm hc
      · rw [hp] at hprev
        cases hprev
    have hkept : toggle s.quote c = s.quote := by
      rw [hs]
      exact if_neg hc
    rw [hkept]
  · rfl

/-- The text of a literal leaves the quote open, and what is before the next character is its last
one. -/
theorem forms_body (hq : isQuote q = true) {body : List Char} (hbody : LiteralBody q body)
    (hs : s.quote = some q) (rest : List Char) :
    s.forms (body ++ rest) = ({ s with
      current := body.reverse ++ s.current
      previous := body.getLast?.or s.previous } : FormScan).forms rest := by
  induction hbody generalizing s with
  | nil => rfl
  | @plain c body hc _ _ ih =>
    rw [List.cons_append, forms, step_inside hs (Or.inl hc), List.nil_append]
    dsimp only
    rw [ih (s := { s with current := c :: s.current, previous := some c }) hs]
    simp [List.getLast?_cons]
  | @pair c body _ ih =>
    -- the backslash is no quote, and the character after it follows a backslash
    have hb : '\\' ≠ q := Ne.symm (ne_backslash_of_isQuote hq)
    rw [List.cons_append, List.cons_append, forms, step_inside hs (Or.inl hb), List.nil_append]
    dsimp only
    have hprotected := step_inside (c := c) (q := q)
      (s := { s with current := '\\' :: s.current, previous := some '\\' }) hs (Or.inr rfl)
    rw [forms, hprotected, List.nil_append]
    dsimp only
    rw [ih (s := { s with current := c :: '\\' :: s.current, previous := some c }) hs]
    simp [List.getLast?_cons]

/-- What follows a literal that is not closed belongs to it, and is dropped if a list is open. -/
theorem forms_unclosed (hq : isQuote q = true) {body : List Char} (hbody : LiteralBody q body)
    (hs : s.quote = some q) (hdepth : s.depth ≠ 0) : s.forms body = [] := by
  have hforms := forms_body hq hbody hs []
  rw [List.append_nil] at hforms
  rw [hforms, forms]
  exact if_neg hdepth

end FormScan

/-- A call that shows a literal. -/
def displayCall (q : Char) (body : List Char) : List Char :=
  "(display ".toList ++ (q :: body ++ [q]) ++ [')']

section
variable {q : Char} {body : List Char}

theorem displayCall_append (q : Char) (body : List Char) :
    displayCall q body ++ [' ', '1'] = "(display ".toList ++ q :: (body ++ [q, ')', ' ', '1']) := by
  unfold displayCall
  generalize "(display ".toList = front
  simp

theorem eq_of_isQuote (hq : isQuote q = true) : q = '"' ∨ q = '\'' := by
  simpa [isQuote] using hq

/-- The scan comes to the body with a list and the quote open. -/
theorem forms_opening (hq : isQuote q = true) (rest : List Char) :
    FormScan.forms {} ("(display ".toList ++ q :: rest) =
      FormScan.forms ⟨q :: " yalpsid(".toList, 1, some q, some q⟩ rest := by
  rcases eq_of_isQuote hq with rfl | rfl
  · rfl
  · rfl

/-- If the quote after the body is taken for its end then two forms end in what follows. -/
theorem forms_closed {current : List Char} (hlast : current.getLast? = some '(') :
    FormScan.forms ⟨current, 1, none, some q⟩ [')', ' ', '1'] =
      [(')' :: current).reverse, ['1']] := by
  have hblank : FormScan.finish [' '] = [] := by decide
  have hone : FormScan.finish ['1'] = [['1']] := by decide
  have hform : FormScan.finish (')' :: current) = [(')' :: current).reverse] := by
    refine FormScan.finish_eq (List.cons_ne_nil _ _) ?_ ?_
    · rw [List.getLast?_cons, hlast]
      rintro c ⟨⟩
      decide
    · rintro c ⟨⟩
      decide
  calc FormScan.forms ⟨current, 1, none, some q⟩ [')', ' ', '1']
      = FormScan.finish (')' :: current) ++ (FormScan.finish [' '] ++ FormScan.finish ['1']) := rfl
    _ = [(')' :: current).reverse, ['1']] := by rw [hform, hblank, hone]; rfl

theorem forms_displayCall (hq : isQuote q = true) (hbody : LiteralBody q body) :
    FormScan.forms {} (displayCall q body ++ [' ', '1']) =
      if body.getLast? = some '\\' then [] else [displayCall q body, ['1']] := by
  rw [displayCall_append, forms_opening hq, FormScan.forms_body hq hbody rfl, FormScan.forms]
  dsimp only
  split
  · next hprev =>
    -- the quote counts as protected, and all that follows belongs to the literal
    have htail : LiteralBody q [')', ' ', '1'] := by
      apply LiteralBody.of_forall
      intro c hc
      simp only [List.mem_cons, List.not_mem_nil, or_false] at hc
      rcases eq_of_isQuote hq with rfl | rfl <;> rcases hc with rfl | rfl | rfl <;> decide
    rw [FormScan.step_inside rfl (Or.inr (by rw [hprev]; rfl)), List.nil_append]
    exact FormScan.forms_unclosed hq htail rfl Int.one_ne_zero
  · next hprev =>
    have hprevious : body.getLast?.or (some q) ≠ some '\\' := by
      cases hlast : body.getLast? with
      | none => exact fun h => ne_backslash_of_isQuote hq (Option.some.inj h)
      | some c => exact fun h => hprev (hlast.trans h)
    rw [FormScan.step_other hprevious (Or.inl rfl), nextQuote_close hq, List.nil_append]
    have hopening : (q :: (body.reverse ++ q :: " yalpsid(".toList)).getLast? = some '(' := by
      simp [List.getLast?_cons, List.getLast?_append]
    have hreverse (front : List Char) : (')' :: q :: (body.reverse ++ q :: front)).reverse =
        front.reverse ++ (q :: body ++ [q]) ++ [')'] := by simp
    have hfront : " yalpsid(".toList.reverse = "(display ".toList := by decide
    rw [forms_closed hopening, hreverse, hfront]
    rfl

theorem withoutComments_displayCall (hq : isQuote q = true) (hcomment : ¬ [';', ';'] <:+: body)
    (hline : '\n' ∉ body) :
    withoutComments (displayCall q body ++ [' ', '1']) = displayCall q body ++ [' ', '1'] := by
  rw [displayCall_append]
  have hstart (rest : List Char) : beforeComment ("(display ".toList ++ rest) =
      "(display ".toList ++ beforeComment rest := rfl
  have hnosemi : q ≠ ';' := by
    rcases eq_of_isQuote hq with rfl | rfl <;> decide
  have hrest : beforeComment [q, ')', ' ', '1'] = [q, ')', ' ', '1'] := by
    rcases eq_of_isQuote hq with rfl | rfl <;> rfl
  refine withoutComments_eq_self ?_ ?_ ?_ ?_
  · have hfront : '\n' ∉ "(display ".toList := by decide
    have hq' : '\n' ≠ q := by
      rcases eq_of_isQuote hq with rfl | rfl <;> decide
    simp only [List.mem_append, List.mem_cons, hfront, hline, hq']
    decide
  · rw [hstart, beforeComment_cons hnosemi, beforeComment_append hcomment, hrest]
    rintro c ⟨⟩
    exact hnosemi
  · exact List.cons_ne_nil _ _
  · refine trim_eq_self ?_ ?_
    · rintro c ⟨⟩
      decide
    · have hlast :
          ("(display ".toList ++ q :: (body ++ [q, ')', ' ', '1'])).getLast? = some '1' := by
        simp [List.getLast?_cons, List.getLast?_append]
      rw [hlast]
      rintro c ⟨⟩
      decide

end

end Text

/-- For tokens the literal is one word, whatever it holds. -/
theorem Token.scan_displayCall {q : Char} {body : List Char} (hq : Text.isQuote q = true)
    (hbody : Text.LiteralBody q body) (rest : List Char) :
    scan 0 [] (Text.displayCall q body ++ rest) =
      .lparen :: .word "display" :: .word (String.ofList (q :: body ++ [q])) :: .rparen ::
        scan 0 [] rest := by
  have hcall : Text.displayCall q body ++ rest =
      "(display ".toList ++ ((q :: body ++ [q]) ++ ')' :: rest) := by
    unfold Text.displayCall
    generalize "(display ".toList = front
    simp
  have hstart (cs : List Char) : scan 0 [] ("(display ".toList ++ cs) =
      .lparen :: .word "display" :: scan 0 [] cs := rfl
  have hend : scan 0 [] (')' :: rest) = .rparen :: scan 0 [] rest := rfl
  have hdelimited : Text.Delimited (')' :: rest) := by
    rintro c ⟨⟩
    decide
  rw [hcall, hstart, scan_segment (.literal hq hbody), scan_delimited hdelimited, hend,
    List.append_nil, List.cons_append, withWord_reverse_cons]

theorem tokenize_displayCall {q : Char} {body : List Char} (hq : Text.isQuote q = true)
    (hbody : Text.LiteralBody q body) :
    tokenize (String.ofList (Text.displayCall q body ++ [' ', '1'])) =
      [.lparen, .word "display", .word (String.ofList (q :: body ++ [q])), .rparen, .word "1"] := by
  rw [tokenize, String.toList_ofList, Token.scan_displayCall hq hbody]
  rfl

/-- What literals hold is the same for tokens and for forms, but where they end is not. Take a call
that shows a literal, and a number after it, where the text of the literal is any sequence of
characters that are neither the quote nor a backslash and of pairs of a backslash and another
character, without a comment and on one line. The literal is one token. The text is cut into the
call and the number if the literal does not end with a backslash. If it does, which is then a
protected one, its closing quote counts as protected for the forms, the call never ends, and no form
is left. -/
theorem topLevelForms_displayCall {q : Char} {body : List Char} (hq : Text.isQuote q = true)
    (hbody : Text.LiteralBody q body) (hcomment : ¬ [';', ';'] <:+: body) (hline : '\n' ∉ body) :
    let text := String.ofList (Text.displayCall q body ++ [' ', '1'])
    tokenize text =
        [.lparen, .word "display", .word (String.ofList (q :: body ++ [q])), .rparen, .word "1"] ∧
      Text.topLevelForms text = if body.getLast? = some '\\' then []
        else [String.ofList (Text.displayCall q body), "1"] := by
  refine ⟨tokenize_displayCall hq hbody, ?_⟩
  rw [Text.topLevelForms, String.toList_ofList, Text.withoutComments_displayCall hq hcomment hline,
    Text.forms_displayCall hq hbody]
  split
  · rfl
  · rfl

/-- A literal with a protected quote before a parenthesis, a protected backslash before another one,
and a quote of the other kind at its end. -/
theorem topLevelForms_displayCall_mixed :
    let body := ['a', '\\', '"', ')', '\\', '\\', '(', 'b', '\'']
    Text.LiteralBody '"' body ∧
      Text.topLevelForms "(display \"a\\\")\\\\(b'\") 1" =
        ["(display \"a\\\")\\\\(b'\")", "1"] := by
  intro body
  have hbody : Text.LiteralBody '"' body :=
    .plain (by decide) (by decide) (.pair '"' (.plain (by decide) (by decide) (.pair '\\'
      (.plain (by decide) (by decide) (.plain (by decide) (by decide)
        (.plain (by decide) (by decide) .nil))))))
  have hforms := (topLevelForms_displayCall (by decide) hbody (by decide) (by decide)).2
  have htext : String.ofList (Text.displayCall '"' body ++ [' ', '1']) =
      "(display \"a\\\")\\\\(b'\") 1" := by decide
  have hcall : String.ofList (Text.displayCall '"' body) =
      "(display \"a\\\")\\\\(b'\")" := by decide
  rw [htext, hcall] at hforms
  exact ⟨hbody, hforms⟩

/-- A literal that holds a protected backslash and nothing else is one token, but the call that
shows it is lost with all that follows. -/
theorem literal_call_lost :
    Text.LiteralBody '"' ['\\', '\\'] ∧
      tokenize "(display \"\\\\\") 1" =
        [.lparen, .word "display", .word "\"\\\\\"", .rparen, .word "1"] ∧
      Text.topLevelForms "(display \"\\\\\") 1" = [] ∧
      Text.topLevelForms "(display '\\\\') 1" = [] :=
  ⟨.pair '\\' .nil, by decide, by decide, by decide⟩

end SmallScheme
