import SmallScheme.Proofs.Lockstep
import SmallScheme.Proofs.Running

/-! Texts one after another.

A text that closes its quotes and can be read to its end may be cut off where its last line ends: the
tokens of a longer text are those of the two parts, and so are its forms. Evaluating the longer text is
then evaluating one part after the other, since evaluation does not look at what was shown before. -/
namespace SmallScheme

namespace Text

/-- Every quote of a text belongs to a literal that the text closes. -/
inductive QuotesClosed : List Char → Prop where
  | nil : QuotesClosed []
  | plain {c : Char} {cs : List Char} : isQuote c = false → QuotesClosed cs → QuotesClosed (c :: cs)
  /-- The literal ends with the last character of `body`. -/
  | literal {q : Char} {body cs : List Char} : isQuote q = true →
      literalLength? q body = some body.length → QuotesClosed cs → QuotesClosed (q :: (body ++ cs))

theorem QuotesClosed.plain_append {cs rest : List Char} (h : ∀ c ∈ cs, isQuote c = false)
    (hrest : QuotesClosed rest) : QuotesClosed (cs ++ rest) := by
  induction cs with
  | nil => exact hrest
  | cons c cs ih =>
    obtain ⟨hc, hcs⟩ := List.forall_mem_cons.mp h
    exact .plain hc (ih hcs)

end Text

namespace Token
open Text

/-- A delimiter divides the tokens of a text if the text before it closes its quotes. -/
theorem scan_append {cs : List Char} (h : QuotesClosed cs) {c : Char} (hc : isDelimiter c = true)
    (current more : List Char) :
    scan 0 current (cs ++ c :: more) = scan 0 current cs ++ (mark c ++ scan 0 [] more) := by
  induction h generalizing current with
  | nil => rw [List.nil_append, scan_delimiter hc, scan, withWord_append, List.nil_append]
  | @plain d cs hquote _ ih =>
    by_cases hd : isDelimiter d = true
    · rw [List.cons_append, scan_delimiter hd, scan_delimiter hd, ih, withWord_append,
        List.append_assoc]
    · have hd' : isDelimiter d = false := Bool.eq_false_iff.mpr hd
      rw [List.cons_append, scan_other hd', scan_other hd', hquote, if_neg Bool.false_ne_true,
        if_neg Bool.false_ne_true]
      exact ih (d :: current)
  | @literal q body cs hq hbody _ ih =>
    have hd : isDelimiter q = false := isDelimiter_of_isQuote hq
    -- the literal ends in the same place whatever comes after it
    have hlength (rest : List Char) : literalLength? q (body ++ rest) = some body.length := by
      rw [literalLength?_eq_closer?] at hbody ⊢
      exact closer?_append hbody rest
    have hscan (rest : List Char) : scan 0 current (q :: (body ++ rest)) =
        scan 0 (body.reverse ++ q :: current) rest := by
      rw [scan_other hd, if_pos hq, hlength]
      exact scan_literal body (q :: current) rest
    rw [List.cons_append, List.append_assoc, hscan, hscan]
    exact ih (body.reverse ++ q :: current)

end Token

/-- The tokens of two texts on lines of their own. -/
theorem tokenize_lines {first : String} (h : Text.QuotesClosed first.toList) (second : String) :
    tokenize (first ++ "\n" ++ second) = tokenize first ++ tokenize second := by
  have hnewline : Text.isDelimiter '\n' = true := by decide
  unfold tokenize
  rw [String.toList_append, String.toList_append, List.append_assoc]
  exact Token.scan_append h hnewline [] second.toList

namespace Program

/-- The program of two texts on lines of their own. -/
theorem ofText_lines {first : String} (hquotes : Text.QuotesClosed first.toList)
    (hread : (ofText first).fault? = none) (second : String) :
    ofText (first ++ "\n" ++ second) =
      ⟨(ofText first).forms ++ (ofText second).forms, (ofText second).fault?⟩ := by
  rw [ofText, tokenize_lines hquotes]
  exact ofTokens_append hread _

/-- Evaluates a program after forms of which the last one has given a value. -/
def evalAfter (depth : Nat) (s : ScopeId) (last : Value) (p : Program) : Action Value := do
  let v ← evalForms depth s last p.forms
  match p.fault? with
  | none => return v
  | some fault => throw (.syntactic fault)

/-- Only a text without tokens has a program of no forms and no fault. -/
theorem ofTokens_ne_empty {ts : List Token} (h : ts ≠ []) :
    (ofTokens ts).forms ≠ [] ∨ (ofTokens ts).fault? ≠ none := by
  rw [ofTokens, dif_neg h]
  split
  · exact Or.inr nofun
  · exact Or.inl nofun

/-- What the last value was matters only where there are no tokens. -/
theorem perform_evalAfter (depth : Nat) (s : ScopeId) (last : Value) (text : String) (st : Store) :
    ((ofText text).evalAfter depth s last).perform st =
      (if tokenize text = [] then .ok last else (((ofText text).eval depth s).perform st).1,
        (((ofText text).eval depth s).perform st).2) := by
  split
  · next hnone =>
    have hempty : ofText text = ⟨[], none⟩ := by rw [ofText, hnone, ofTokens_nil]
    rw [hempty]
    rfl
  · next hsome =>
    have hsame : (ofText text).evalAfter depth s last = (ofText text).eval depth s := by
      have hne := ofTokens_ne_empty hsome
      change (ofText text).forms ≠ [] ∨ (ofText text).fault? ≠ none at hne
      rcases hp : ofText text with ⟨forms, fault?⟩
      rw [hp] at hne
      cases forms with
      | cons d ds =>
        have hforms : evalForms depth s last (d :: ds) = evalForms depth s .unspecified (d :: ds) := by
          rw [evalForms_cons, evalForms_cons]
        change evalAfter depth s last ⟨d :: ds, fault?⟩ = evalAfter depth s .unspecified ⟨d :: ds, fault?⟩
        unfold evalAfter
        rw [hforms]
      | nil =>
        cases fault? with
        | none => exact absurd hne (by simp)
        | some fault => rfl
    rw [hsame]

end Program

theorem evalForms_append (depth : Nat) (s : ScopeId) (last : Value) (ds es : List Datum) :
    evalForms depth s last (ds ++ es) =
      evalForms depth s last ds >>= fun v => evalForms depth s v es := by
  induction ds generalizing last with
  | nil => rw [evalForms, pure_bind, List.nil_append]
  | cons d ds ih =>
    have hrest (v : Value) : evalForms depth s v (ds ++ es) =
        evalForms depth s v ds >>= fun w => evalForms depth s w es := ih v
    rw [List.cons_append, evalForms_cons, evalForms_cons, bind_assoc]
    simp only [hrest]

theorem Program.eval_append (depth : Nat) (s : ScopeId) (ds : List Datum) (p : Program) :
    Program.eval depth s ⟨ds ++ p.forms, p.fault?⟩ =
      evalForms depth s .unspecified ds >>= fun v => p.evalAfter depth s v := by
  rw [Program.eval, evalForms_append, bind_assoc]
  rfl

/-- A store goes on in step with itself when what it has shown is cleared. -/
theorem Store.InStep.clear {a b : Store} {old : List Value × List Value}
    (h : a.InStep .same old b) : a.InStep .same (a.shown.toList, []) { b with shown := #[] } :=
  { h with shown := ⟨[], (List.append_nil _).symm, rfl⟩ }

theorem Store.InStep.refl (a : Store) : a.InStep .same (a.shown.toList, a.shown.toList) a where
  toMatches := Alike.refl a
  numbers := rfl
  draws := rfl

/-- Stores in step without a renaming have the same bindings. -/
theorem Store.InStep.get?_eq {a b : Store} {old : List Value × List Value} (h : a.InStep .same old b)
    (s : ScopeId) (name : String) : b.get? s name = a.get? s name := by
  have hget := h.get s name
  rwa [Value.rename_same, Option.map_id] at hget

namespace Session
variable {ses : Session}

theorem run_bind_error {a : Action Value} {e : Error} (h : (ses.run a).1.result = .error e)
    (k : Value → Action Value) : ses.run (a >>= k) = ses.run a := by
  have hperform : (a >>= k).perform { ses.store with shown := #[] } =
      a.perform { ses.store with shown := #[] } := by
    rcases hfirst : a.perform { ses.store with shown := #[] } with ⟨r, st⟩
    have hr : r = .error e := (congrArg Prod.fst hfirst).symm.trans h
    rw [Action.perform_bind, hfirst, hr]
  unfold run
  rw [hperform]

theorem perform_bind_ok {a : Action Value} {v : Value} (h : (ses.run a).1.result = .ok v)
    (k : Value → Action Value) :
    (a >>= k).perform { ses.store with shown := #[] } = (k v).perform (ses.run a).2.store := by
  rcases hfirst : a.perform { ses.store with shown := #[] } with ⟨r, st⟩
  have hr : r = .ok v := (congrArg Prod.fst hfirst).symm.trans h
  have hst : (ses.run a).2.store = st := congrArg Prod.snd hfirst
  rw [Action.perform_bind, hfirst, hr, hst]

/-- A text is evaluated in a session as in every store that is in step with it: with the same result,
the same values shown, and stores in step after it. -/
theorem evaluate_inStep {a : Store} {old : List Value × List Value}
    (hab : a.InStep .same old ses.store) (text : String) :
    let run := ((Program.ofText text).eval ses.depth ses.global).perform a
    (ses.evaluate text).1.result = run.1 ∧
      run.2.shown.toList = a.shown.toList ++ (ses.evaluate text).1.shown ∧
      run.2.InStep .same (a.shown.toList, []) (ses.evaluate text).2.store := by
  intro run
  have hpar := (Program.ofText text).parallels_eval .same (a.shown.toList, []) ses.depth ses.global
    a _ hab.clear
  obtain ⟨hstep, hresult⟩ := hpar
  rw [Value.rename_same, Except.map_id] at hresult
  obtain ⟨vs, hvs, hvs'⟩ := hstep.shown
  rw [Value.rename_same, List.map_id] at hvs'
  have hshown : (ses.evaluate text).1.shown = vs := hvs'
  refine ⟨hresult, ?_, hstep⟩
  rw [hshown]
  exact hvs

/-- Evaluation stops at the first form that fails: the forms before it have had their effects, and
those after it have none. -/
theorem evaluate_stops {text : String} {ds es : List Datum} {d : Datum} {fault? : Option SyntaxFault}
    (htext : Program.ofText text = ⟨ds ++ d :: es, fault?⟩) {v : Value} {st st' : Store} {e : Error}
    (hbefore : (evalForms ses.depth ses.global .unspecified ds).perform
      { ses.store with shown := #[] } = (.ok v, st))
    (hform : (evalForm ses.depth ses.global d).perform st = (.error e, st')) :
    (ses.evaluate text).1.result = .error e ∧ (ses.evaluate text).2.store = st' := by
  have hrun : ((Program.ofText text).eval ses.depth ses.global).perform
      { ses.store with shown := #[] } = (.error e, st') := by
    rw [htext, Program.eval, evalForms_append, bind_assoc, Action.perform_bind, hbefore]
    dsimp only
    rw [evalForms_cons, bind_assoc, Action.perform_bind, hform]
  constructor
  · exact congrArg Prod.fst hrun
  · exact congrArg Prod.snd hrun

/-- Evaluation of a text that cannot be read to its end fails after its forms, which have had their
effects. -/
theorem evaluate_faulty {text : String} {ds : List Datum} {fault : SyntaxFault}
    (htext : Program.ofText text = ⟨ds, some fault⟩) {v : Value} {st : Store}
    (hforms : (evalForms ses.depth ses.global .unspecified ds).perform
      { ses.store with shown := #[] } = (.ok v, st)) :
    (ses.evaluate text).1.result = .error (.syntactic fault) ∧ (ses.evaluate text).2.store = st := by
  have hrun : ((Program.ofText text).eval ses.depth ses.global).perform
      { ses.store with shown := #[] } = (.error (.syntactic fault), st) := by
    rw [htext, Program.eval, Action.perform_bind, hforms]
    rfl
  constructor
  · exact congrArg Prod.fst hrun
  · exact congrArg Prod.snd hrun

end Session

/-- Splitting a text over two evaluations changes nothing. Let the first part be readable to its end,
with every quote in a literal that it closes, and let the second part follow on a new line. If the first
part fails on its own then the whole does the same and no more. If it gives a value then the whole has
the result of the second part, or that value if the second part has no tokens, shows what both parts
show, and leaves the bindings that both leave. In the whole, the forms before one that fails and those
before a fault of syntax keep their effects, and the forms after it have none. -/
theorem evaluate_splits (ses : Session) {first : String}
    (hread : ∃ ds, (Program.ofText first).complete = .ok ds)
    (hquotes : Text.QuotesClosed first.toList) (second : String) :
    let program := Program.ofText (first ++ "\n" ++ second)
    let whole := ses.evaluate (first ++ "\n" ++ second)
    let one := ses.evaluate first
    let two := one.2.evaluate second
    let forms (ds : List Datum) := (evalForms ses.depth ses.global .unspecified ds).perform
      { ses.store with shown := #[] }
    (∀ e, one.1.result = .error e → whole = one) ∧
    (∀ v, one.1.result = .ok v →
      whole.1.result = (if tokenize second = [] then .ok v else two.1.result) ∧
      whole.1.shown = one.1.shown ++ two.1.shown ∧
      ∀ s name, whole.2.store.get? s name = two.2.store.get? s name) ∧
    (∀ ds d es fault?, program = ⟨ds ++ d :: es, fault?⟩ → ∀ v st, forms ds = (.ok v, st) →
      ∀ e st', (evalForm ses.depth ses.global d).perform st = (.error e, st') →
        whole.1.result = .error e ∧ whole.2.store = st') ∧
    ∀ ds fault, program = ⟨ds, some fault⟩ → ∀ v st, forms ds = (.ok v, st) →
      whole.1.result = .error (.syntactic fault) ∧ whole.2.store = st := by
  intro program whole one two forms
  obtain ⟨ds, hds⟩ := hread
  have hfirst : Program.ofText first = ⟨ds, none⟩ := Program.eq_of_complete hds
  have hfault : (Program.ofText first).fault? = none := by rw [hfirst]
  -- the whole runs the forms of the first part and then, if they succeed, the second part
  have hprogram : program.eval ses.depth ses.global =
      (Program.ofText first).eval ses.depth ses.global >>=
        fun v => (Program.ofText second).evalAfter ses.depth ses.global v := by
    rw [Program.eval_of_complete hfault, ← Program.eval_append]
    exact congrArg _ (Program.ofText_lines hquotes hfault second)
  have hrun : whole = ses.run ((Program.ofText first).eval ses.depth ses.global >>=
      fun v => (Program.ofText second).evalAfter ses.depth ses.global v) := by
    rw [← hprogram]
    rfl
  refine ⟨fun e he => ?_, fun v hv => ?_, ?_, ?_⟩
  · rw [hrun]
    exact Session.run_bind_error he _
  · -- the second part goes on from the store of the first, with all that was shown
    have hperform := Session.perform_bind_ok hv
      fun v => (Program.ofText second).evalAfter ses.depth ses.global v
    rw [Program.perform_evalAfter] at hperform
    obtain ⟨hresult, hshown, hstep⟩ := one.2.evaluate_inStep (Store.InStep.refl _) second
    have hstore := congrArg Prod.snd hperform
    refine ⟨?_, ?_, fun s name => ?_⟩
    · rw [hrun, hresult]
      exact congrArg Prod.fst hperform
    · rw [hrun]
      exact (congrArg (fun st => st.shown.toList) hstore).trans hshown
    · rw [hrun, hstep.get?_eq]
      exact congrArg (fun st => st.get? s name) hstore
  · intro ds d es fault? hp v st hbefore e st' hform
    exact Session.evaluate_stops hp hbefore hform
  · intro ds fault hp v st hforms
    exact Session.evaluate_faulty hp hforms

set_option maxRecDepth 20000 in
/-- The first part shows a literal with a parenthesis and a protected quote, and the second has a
parenthesis that closes nothing. What was shown stays. -/
theorem evaluate_splits_stray :
    let whole := (Session.start { depth := 5 }).evaluate ("(display 'a)\\'b')" ++ "\n" ++ ") y")
    whole.1.result = .error (.syntactic .unexpectedClose) ∧ whole.1.shown = [.string "a)\\'b"] := by
  intro whole
  have hquotes : Text.QuotesClosed "(display 'a)\\'b')".toList := by
    have hend : Text.QuotesClosed ")".toList := .plain (by decide) .nil
    have hliteral : Text.QuotesClosed ('\'' :: ("a)\\'b'".toList ++ ")".toList)) :=
      .literal (by decide) (by decide) hend
    have hbefore : "(display ".toList.all (!Text.isQuote ·) = true := by decide
    rw [List.all_eq_true] at hbefore
    exact .plain_append (fun c hc => (Bool.not_eq_true' _).mp (hbefore c hc)) hliteral
  have hfirst : Program.ofText "(display 'a)\\'b')" =
      .single (.list [.symbol "display", .symbol "'a)\\'b'"]) := by
    have htokens : tokenize "(display 'a)\\'b')" =
        [.lparen, .word "display", .word "'a)\\'b'", .rparen] := by decide
    have hread : Datum.read [.lparen, .word "display", .word "'a)\\'b'", .rparen] =
        (.ok (.list [.symbol "display", .symbol "'a)\\'b'"]), []) := by rfl
    rw [Program.ofText, htokens, Program.ofTokens_ok hread, Program.ofTokens_nil]
    rfl
  have htokens : tokenize ") y" = [.rparen, .word "y"] := by decide
  have hsecond : Program.ofText ") y" = ⟨[], some .unexpectedClose⟩ := by
    rw [Program.ofText, htokens, Program.ofTokens]
    rfl
  have hone : (Session.start { depth := 5 }).evaluate "(display 'a)\\'b')" =
      (Session.start { depth := 5 }).run ((Program.single (.list [.symbol "display",
        .symbol "'a)\\'b'"])).eval 5 (Session.start { depth := 5 }).global) := by
    rw [Session.evaluate, hfirst]
    rfl
  obtain ⟨-, hok, -⟩ := evaluate_splits (Session.start { depth := 5 })
    ⟨_, congrArg Program.complete hfirst⟩ hquotes ") y"
  obtain ⟨hresult, hshown, -⟩ := hok .unspecified (by rw [hone]; rfl)
  constructor
  · rw [hresult, htokens, if_neg (List.cons_ne_nil _ _), Session.evaluate, hsecond]
    rfl
  · rw [hshown, hone, Session.evaluate, hsecond]
    rfl

end SmallScheme
