import SmallScheme.Proofs.Escapes
import SmallScheme.Proofs.Failure
import SmallScheme.Proofs.Forms
import SmallScheme.Proofs.Running

/-! Literals are read verbatim: what stands between the quotes in a text is the string that the text
denotes.

The literal is one token. A word that starts with a quote is neither a boolean nor a numeral, whatever
it looks like inside, so it becomes a symbol that still has its quotes, and evaluation takes off the two
at the ends. No step looks at the text in between or changes it. -/
namespace SmallScheme

namespace Text
variable {q : Char}

theorem ofList_quote_ne (hq : isQuote q = true) (cs : List Char) {c : Char} {ds : List Char}
    (hc : isQuote c = false) : String.ofList (q :: cs) ≠ String.ofList (c :: ds) := by
  intro h
  have hqc : q = c := (List.cons.inj (String.ofList_injective h)).1
  rw [hqc, hc] at hq
  cases hq

/-- The quotes around a text come off again. -/
theorem unquoted?_quoted (hq : isQuote q = true) (body : List Char) :
    unquoted? (q :: body ++ [q]) = some body := by
  simp [unquoted?, hq]

end Text

theorem Numeral.read?_quote {q : Char} (hq : Text.isQuote q = true) (cs : List Char) :
    read? (String.ofList (q :: cs)) = none := by
  have hplus : String.ofList (q :: cs) ≠ "Infinity" ∧ String.ofList (q :: cs) ≠ "+Infinity" :=
    ⟨Text.ofList_quote_ne (c := 'I') hq cs rfl, Text.ofList_quote_ne (c := '+') hq cs rfl⟩
  have hminus : String.ofList (q :: cs) ≠ "-Infinity" := Text.ofList_quote_ne (c := '-') hq cs rfl
  have hdigits : ofDigits? (q :: cs) = none := by
    have hzero : q ≠ '0' := by
      rintro rfl
      cases hq
    rw [ofDigits?_eq_decimal? fun c rest h => absurd (List.cons.inj h).1 hzero]
    rcases Text.eq_of_isQuote hq with rfl | rfl
    · rfl
    · rfl
  rw [read?, String.toList_ofList, hdigits]
  simp only [hplus, hminus, decide_false, Bool.or_self, Bool.false_eq_true, if_false]

/-- A word that starts with a quote is a symbol, even if the rest looks like a number or a boolean. -/
theorem Datum.ofWord_quote {q : Char} (hq : Text.isQuote q = true) (cs : List Char) :
    ofWord (String.ofList (q :: cs)) = symbol (String.ofList (q :: cs)) := by
  have hbool (ds : List Char) : String.ofList (q :: cs) ≠ String.ofList ('#' :: ds) :=
    Text.ofList_quote_ne hq cs rfl
  have htrue : String.ofList (q :: cs) ≠ "#t" ∧ String.ofList (q :: cs) ≠ "#true" :=
    ⟨hbool ['t'], hbool ['t', 'r', 'u', 'e']⟩
  have hfalse : String.ofList (q :: cs) ≠ "#f" ∧ String.ofList (q :: cs) ≠ "#false" :=
    ⟨hbool ['f'], hbool ['f', 'a', 'l', 's', 'e']⟩
  rw [ofWord, Numeral.read?_quote hq]
  simp only [htrue, hfalse, decide_false, Bool.or_self, Bool.false_eq_true, if_false]

section
variable {q : Char} {body : List Char}

theorem Value.literal?_quoted (hq : Text.isQuote q = true) (body : List Char) :
    (symbol (String.ofList (q :: body ++ [q]))).literal? = some (String.ofList body) := by
  rw [literal?, String.toList_ofList, Text.unquoted?_quoted hq]
  rfl

theorem Value.text_string (s : String) :
    (string s).text = String.ofList ('"' :: s.toList ++ ['"']) := by
  have htext : (string s).text = "\"" ++ s ++ "\"" := rfl
  rw [htext, List.cons_append, String.ofList_cons, String.ofList_append, String.ofList_toList,
    String.append_assoc]
  rfl

theorem ofText_literal (hq : Text.isQuote q = true) (hbody : Text.LiteralBody q body) :
    Program.ofText (String.ofList (q :: body ++ [q])) =
      .single (.symbol (String.ofList (q :: body ++ [q]))) := by
  have htokens : tokenize (String.ofList (q :: body ++ [q])) =
      [.word (String.ofList (q :: body ++ [q]))] := by
    have hsegment : Text.Segment [] (q :: body ++ [q]) := .literal hq hbody
    have hscan := Token.scan_segment hsegment []
    rw [List.append_nil, List.append_nil] at hscan
    rw [tokenize, String.toList_ofList, hscan, Token.scan, List.cons_append,
      Token.withWord_reverse_cons]
  have hread : Datum.read [.word (String.ofList (q :: body ++ [q]))] =
      (.ok (.symbol (String.ofList (q :: body ++ [q]))), []) := by
    rw [List.cons_append, ← Datum.ofWord_quote hq]
    rfl
  rw [Program.ofText, htokens, Program.ofTokens_ok hread, Program.ofTokens_nil]
  rfl

theorem ofText_displayCall (hq : Text.isQuote q = true) (hbody : Text.LiteralBody q body) :
    Program.ofText (String.ofList (Text.displayCall q body)) =
      .single (.list [.symbol "display", .symbol (String.ofList (q :: body ++ [q]))]) := by
  have htokens : tokenize (String.ofList (Text.displayCall q body)) =
      [.lparen, .word "display", .word (String.ofList (q :: body ++ [q])), .rparen] := by
    have hscan := Token.scan_displayCall hq hbody []
    rw [List.append_nil] at hscan
    rw [tokenize, String.toList_ofList, hscan]
    rfl
  have hname : Datum.ofWord "display" = .symbol "display" := rfl
  have hread : Datum.read [.lparen, .word "display", .word (String.ofList (q :: body ++ [q])),
      .rparen] = (.ok (.list [.symbol "display", .symbol (String.ofList (q :: body ++ [q]))]), []) := by
    rw [List.cons_append, ← Datum.ofWord_quote hq, ← hname]
    rfl
  rw [Program.ofText, htokens, Program.ofTokens_ok hread, Program.ofTokens_nil]
  rfl

theorem evalForm_literal (hq : Text.isQuote q = true) (body : List Char) (depth : Nat) (s : ScopeId)
    (st : Store) :
    (evalForm (depth + 1) s (.symbol (String.ofList (q :: body ++ [q])))).perform st =
      (.ok (.string (String.ofList body)), st) := by
  rw [evalForm, Action.perform_bind, Action.perform_load]
  change (eval (depth + 1) (.symbol _) s).perform st = _
  rw [eval_literal (Value.literal?_quoted hq body)]
  rfl

/-- A call of the built-in procedure shows what the literal stands for. The list of the call takes an
identity. -/
theorem evalForm_displayCall (hq : Text.isQuote q = true) (body : List Char) (depth : Nat)
    {s : ScopeId} (st : Store) (hdisplay : st.get? s "display" = some (.builtin .display)) :
    (evalForm (depth + 2) s (.list [.symbol "display",
        .symbol (String.ofList (q :: body ++ [q]))])).perform st =
      (.ok .unspecified, { st with
        shown := st.shown.push (.string (String.ofList body))
        nextIdentity := st.nextIdentity + 1 }) := by
  let st' : Store := { st with nextIdentity := st.nextIdentity + 1 }
  have hhead : (eval (depth + 1) (.symbol "display") s).perform st' =
      (.ok (.builtin .display), st') := by
    have hbound : st'.get? s "display" = some (.builtin .display) := hdisplay
    rw [eval_name rfl, Action.perform_lookup, hbound]
  have hargs : (Task.evalAll (Task.perform (depth + 1)) s
      [.symbol (String.ofList (q :: body ++ [q]))]).perform st' =
        (.ok [.string (String.ofList body)], st') := by
    change (eval (depth + 1) (.symbol _) s >>= _).perform st' = _
    rw [eval_literal (Value.literal?_quoted hq body), pure_bind]
    rfl
  rw [evalForm, Action.perform_bind, Action.perform_load]
  change ((Task.eval (.list st.nextIdentity [.symbol "display", .symbol _]) s).perform
    (depth + 2)).perform st' = _
  rw [Task.perform_succ, Task.step_application rfl, Task.evalApplication_of_apply hhead hargs]
  rfl

end

/-- Literals are read verbatim. In every session whose evaluation may nest two levels deep, and
whatever it binds: a text that is a literal, whose body is any sequence of characters that are neither
the quote nor a backslash and of pairs of a backslash and another character, evaluates to the string of
that body; the call that shows the literal shows that string, once, if the name in it still stands for
the built-in procedure. Nothing else changes, but for the identity that the list of the call takes. In
particular the text of a string without double quotes and backslashes evaluates to that string. -/
theorem literals_verbatim (ses : Session) (hdepth : 2 ≤ ses.depth) :
    (∀ (q : Char) (body : List Char), Text.isQuote q = true → Text.LiteralBody q body →
      ses.evaluate (String.ofList (q :: body ++ [q])) =
        (⟨.ok (.string (String.ofList body)), []⟩,
          { ses with store := { ses.store with shown := #[] } }) ∧
      (ses.get? "display" = some (.builtin .display) →
        ses.evaluate (String.ofList (Text.displayCall q body)) =
          (⟨.ok .unspecified, [.string (String.ofList body)]⟩,
            { ses with store := { ses.store with
              shown := #[.string (String.ofList body)]
              nextIdentity := ses.store.nextIdentity + 1 } }))) ∧
    ∀ s : String, '"' ∉ s.toList → '\\' ∉ s.toList →
      (ses.evaluate (Value.string s).text).1 = ⟨.ok (.string s), []⟩ := by
  obtain ⟨depth, hses⟩ : ∃ depth, ses.depth = depth + 2 := ⟨ses.depth - 2, by omega⟩
  have hliteral (q : Char) (body : List Char) (hq : Text.isQuote q = true)
      (hbody : Text.LiteralBody q body) : ses.evaluate (String.ofList (q :: body ++ [q])) =
        (⟨.ok (.string (String.ofList body)), []⟩,
          { ses with store := { ses.store with shown := #[] } }) := by
    rw [Session.evaluate_form (ofText_literal hq hbody), Session.run, hses, evalForm_literal hq]
  refine ⟨fun q body hq hbody => ⟨hliteral q body hq hbody, fun hdisplay => ?_⟩, ?_⟩
  · rw [Session.evaluate_form (ofText_displayCall hq hbody), Session.run, hses,
      evalForm_displayCall hq body depth { ses.store with shown := #[] } hdisplay]
    rfl
  · intro s hquote hbackslash
    have hbody : Text.LiteralBody '"' s.toList := by
      apply Text.LiteralBody.of_forall
      intro c hc
      exact ⟨fun h => hquote (h ▸ hc), fun h => hbackslash (h ▸ hc)⟩
    rw [Value.text_string, hliteral '"' s.toList rfl hbody, String.ofList_toList]

set_option maxRecDepth 20000 in
/-- A literal that looks like a list with a number in it, over two lines, and holds a quote of the other
kind and a protected one. -/
theorem literals_verbatim_mixed :
    let ses := Session.start { depth := 2 }
    let body := ['(', '1', ' ', '"', '\n', ')', '\\', '\'']
    Text.LiteralBody '\'' body ∧
      (ses.evaluate "'(1 \"\n)\\''").1 = ⟨.ok (.string "(1 \"\n)\\'"), []⟩ ∧
      (ses.evaluate "(display '(1 \"\n)\\'')").1 =
        ⟨.ok .unspecified, [.string "(1 \"\n)\\'"]⟩ ∧
      (ses.evaluate (Value.string "1 #t'").text).1 = ⟨.ok (.string "1 #t'"), []⟩ := by
  intro ses body
  have hbody : Text.LiteralBody '\'' body :=
    .plain (by decide) (by decide) (.plain (by decide) (by decide) (.plain (by decide) (by decide)
      (.plain (by decide) (by decide) (.plain (by decide) (by decide) (.plain (by decide) (by decide)
        (.pair '\'' .nil))))))
  have hdisplay : ses.get? "display" = some (.builtin .display) := rfl
  have h := literals_verbatim ses (Nat.le_refl 2)
  obtain ⟨hliteral, hcall⟩ := h.1 '\'' body rfl hbody
  have htext : String.ofList ('\'' :: body ++ ['\'']) = "'(1 \"\n)\\''" := by decide
  have hcalltext : String.ofList (Text.displayCall '\'' body) = "(display '(1 \"\n)\\'')" := by
    decide
  have hstring : String.ofList body = "(1 \"\n)\\'" := by decide
  refine ⟨hbody, ?_, ?_, h.2 "1 #t'" (by decide) (by decide)⟩
  · rw [← htext, hliteral, hstring]
  · rw [← hcalltext, hcall hdisplay, hstring]

end SmallScheme
