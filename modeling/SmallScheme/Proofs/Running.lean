import SmallScheme.Report
import SmallScheme.Proofs.Grammar
import SmallScheme.Proofs.Repetition
import SmallScheme.Proofs.Splitting

/-! Running a text form by form agrees with evaluating it whole.

Evaluation never looks at what was shown before it, so a form has the same course in two stores that
differ in nothing else. One session goes through all forms of a text, and each form in turn is run in
a session that shows nothing yet: the two stay alike from form to form. -/
namespace SmallScheme
open SmallScheme.Action (Simulates)

namespace Store

/-- The stores agree in all but what they have shown. -/
def Alike (a b : Store) : Prop := a.Matches .same (a.shown.toList, b.shown.toList) b

variable {a b : Store}

theorem Matches.alike {old : List Value × List Value} (h : a.Matches .same old b) : a.Alike b :=
  { h with shown := ⟨[], (List.append_nil _).symm, (List.append_nil _).symm⟩ }

theorem Alike.refl (a : Store) : a.Alike a where
  identity _ := rfl
  scope _ := rfl
  present _ h := h
  get s name := by
    rw [Value.rename_same, Option.map_id]
    rfl
  shown := ⟨[], (List.append_nil _).symm, (List.append_nil _).symm⟩

theorem Alike.clear (h : a.Alike b) : a.Alike { b with shown := #[] } :=
  { h with shown := ⟨[], (List.append_nil _).symm, rfl⟩ }

end Store

namespace Action

/-- The action does not depend on what was shown before it. -/
def Oblivious (a : Action Value) : Prop := ∀ old, Simulates .same old id a a

theorem Oblivious.course {p : Action Value} (h : p.Oblivious) {a b : Store} (hab : a.Alike b)
    (hdraw : (p.perform a).2.draws = a.draws) (hdone : (p.perform a).1 ≠ .error .tooDeep) :
    (p.perform b).1 = (p.perform a).1 ∧ (p.perform a).2.Alike (p.perform b).2 ∧
      ∃ vs, (p.perform a).2.shown.toList = a.shown.toList ++ vs ∧
        (p.perform b).2.shown.toList = b.shown.toList ++ vs := by
  obtain ⟨hmatch, _, hresult⟩ := (h _).course a b hab hdraw hdone
  obtain ⟨vs, ha, hb⟩ := hmatch.shown
  -- nothing is renamed, so what corresponds is the same
  refine ⟨?_, hmatch.alike, vs, ha, ?_⟩
  · rw [hresult, Except.map_id]
    rfl
  · rw [hb, Value.rename_same, List.map_id]

theorem Oblivious.draws_le {p : Action Value} (h : p.Oblivious) (a : Store) :
    a.draws ≤ (p.perform a).2.draws := (h ([], [])).draws_le a

theorem oblivious_load (d : Datum) : Oblivious (load d) := by
  refine fun old => ⟨fun _ => Nat.le_refl _, fun a b hab _ _ => ?_⟩
  -- both stores hand out the same identities from here on
  have hnext : a.nextIdentity = b.nextIdentity := hab.identity 0
  refine ⟨⟨?_, hab.scope, hab.present, hab.get, hab.shown⟩, rfl, ?_⟩
  · intro k
    change (Value.load d a.nextIdentity).2 + k = (Value.load d b.nextIdentity).2 + k
    rw [hnext]
  · change Except.ok (Value.load d b.nextIdentity).1 = .ok (Value.load d a.nextIdentity).1
    rw [hnext]

theorem Oblivious.bind {p : Action Value} {k : Value → Action Value} (hp : p.Oblivious)
    (hk : ∀ v, (k v).Oblivious) : (p >>= k).Oblivious :=
  fun old => Simulation.sim_bind (hp old) fun v => hk v old

/-- Of two actions in a row the first fails, or it succeeds and the second goes on. What draws nothing
as a whole draws nothing in its parts. -/
theorem Oblivious.bind_cases {p : Action Value} {k : Value → Action Value} (hp : p.Oblivious)
    (hk : ∀ v, (k v).Oblivious) {a a' : Store} {r : Except Error Value}
    (hrun : (p >>= k).perform a = (r, a')) (hdraw : a'.draws = a.draws) :
    (∃ e, r = .error e ∧ p.perform a = (.error e, a')) ∨
      ∃ v a1, p.perform a = (.ok v, a1) ∧ a1.draws = a.draws ∧ (k v).perform a1 = (r, a') ∧
        a'.draws = a1.draws := by
  have hfirst := hp.draws_le a
  rw [perform_bind] at hrun
  rcases hpa : p.perform a with ⟨e | v, a1⟩
  · rw [hpa] at hrun
    cases hrun
    exact Or.inl ⟨e, rfl, rfl⟩
  · rw [hpa] at hrun hfirst
    have hsecond := (hk v).draws_le a1
    dsimp only at hrun hfirst
    rw [hrun] at hsecond
    dsimp only at hsecond
    -- draws are never taken back, so both parts leave them as they are
    exact Or.inr ⟨v, a1, rfl, by omega, hrun, by omega⟩

theorem oblivious_eval (depth : Nat) (e : Value) (s : ScopeId) : Oblivious (eval depth e s) := by
  intro old
  have h := Simulation.sim_perform .same old (Nat.le_refl depth) (.eval e s)
  rwa [Task.rename_same, Value.rename_same] at h

end Action

/-- Evaluates one form. -/
def evalForm (depth : Nat) (s : ScopeId) (d : Datum) : Action Value := do
  eval depth (← Action.load d) s

theorem oblivious_evalForm (depth : Nat) (s : ScopeId) (d : Datum) :
    (evalForm depth s d).Oblivious :=
  (Action.oblivious_load d).bind fun e => Action.oblivious_eval depth e s

theorem evalForms_cons (depth : Nat) (s : ScopeId) (last : Value) (d : Datum) (ds : List Datum) :
    evalForms depth s last (d :: ds) =
      evalForm depth s d >>= fun v => evalForms depth s v ds := by
  rw [evalForms, evalForm, bind_assoc]

theorem oblivious_evalForms (depth : Nat) (s : ScopeId) (last : Value) (ds : List Datum) :
    (evalForms depth s last ds).Oblivious := by
  induction ds generalizing last with
  | nil => exact fun old => Simulation.sim_pure rfl
  | cons d ds ih =>
    rw [evalForms_cons]
    exact (oblivious_evalForm depth s d).bind ih

/-- How many forms are evaluated before one fails. -/
def completed (depth : Nat) (s : ScopeId) : List Datum → Store → Nat
  | [], _ => 0
  | d :: ds, st =>
    match (evalForm depth s d).perform st with
    | (.ok _, st') => completed depth s ds st' + 1
    | (.error _, _) => 0

namespace Program

/-- The program of one form. -/
def single (d : Datum) : Program := ⟨[d], none⟩

/-- A program that is read to its end is evaluated form by form. -/
theorem eval_of_complete {p : Program} (h : p.fault? = none) {depth : Nat} {s : ScopeId} :
    p.eval depth s = evalForms depth s .unspecified p.forms := by
  rw [Program.eval, h]
  exact bind_pure _

theorem eval_single (depth : Nat) (s : ScopeId) (d : Datum) :
    (single d).eval depth s = evalForm depth s d := by
  rw [eval_of_complete rfl, single, evalForms_cons]
  exact bind_pure _

theorem oblivious_eval (depth : Nat) (s : ScopeId) (p : Program) : (p.eval depth s).Oblivious := by
  refine (oblivious_evalForms depth s .unspecified p.forms).bind fun v => ?_
  cases p.fault? with
  | none => exact fun old => Simulation.sim_pure rfl
  | some fault => exact fun old => Simulation.sim_throw rfl

end Program

theorem Session.evaluate_form {ses : Session} {text : String} {d : Datum}
    (h : Program.ofText text = .single d) :
    ses.evaluate text = ses.run (evalForm ses.depth ses.global d) := by
  rw [evaluate, h, Program.eval_single]

/-- A text has the same course in a session that shows nothing yet. -/
theorem Session.evaluate_alike {ses : Session} {a a' : Store} {input : String}
    {r : Except Error Value} (hab : a.Alike ses.store)
    (hrun : ((Program.ofText input).eval ses.depth ses.global).perform a = (r, a'))
    (hdraw : a'.draws = a.draws) (hdone : r ≠ .error .tooDeep) :
    (ses.evaluate input).1.result = r ∧ a'.Alike (ses.evaluate input).2.store ∧
      a'.shown.toList = a.shown.toList ++ (ses.evaluate input).1.shown := by
  -- a session clears what was shown before it evaluates
  have hcourse := (Program.oblivious_eval ses.depth ses.global (Program.ofText input)).course
    hab.clear
  rw [hrun] at hcourse
  obtain ⟨hresult, halike, vs, ha, hb⟩ := hcourse hdraw hdone
  refine ⟨hresult, halike, ?_⟩
  change _ = _ ++ (((Program.ofText input).eval ses.depth ses.global).perform _).2.shown.toList
  rw [hb]
  exact ha

theorem Session.evaluate_single {ses : Session} {a a' : Store} {input : String} {d : Datum}
    {r : Except Error Value} (hinput : Program.ofText input = .single d) (hab : a.Alike ses.store)
    (hrun : (evalForm ses.depth ses.global d).perform a = (r, a')) (hdraw : a'.draws = a.draws)
    (hdone : r ≠ .error .tooDeep) :
    (ses.evaluate input).1.result = r ∧ a'.Alike (ses.evaluate input).2.store ∧
      a'.shown.toList = a.shown.toList ++ (ses.evaluate input).1.shown := by
  rw [← Program.eval_single, ← hinput] at hrun
  exact evaluate_alike hab hrun hdraw hdone

/-- The value that is reported of a form: none if it was evaluated for effect. -/
def Value.reported? : Value → Option Value
  | .unspecified => none
  | v => some v

namespace FormResult

def value? : FormResult → Option Value
  | success value? _ => value?
  | failure _ => none

/-- The texts that a form has shown. -/
def shown : FormResult → List String
  | success _ shown => shown
  | failure _ => []

theorem ofOutcome_ok {o : Outcome Value} {v : Value} (h : o.result = .ok v) :
    ofOutcome o = success v.reported? (o.shown.map Value.reportText) := by
  rw [ofOutcome, h]
  cases v <;> rfl

theorem ofOutcome_error {o : Outcome Value} {e : Error} (h : o.result = .error e) :
    ofOutcome o = failure e := by
  rw [ofOutcome, h]

end FormResult

namespace Report

theorem evalForms_cons (ses : Session) (input : String) (inputs : List String) :
    evalForms ses (input :: inputs) =
      { input, result := .ofOutcome (ses.evaluate input).1 } ::
        evalForms (ses.evaluate input).2 inputs := rfl

/-- Each input is read as one form. -/
def Matches (inputs : List String) (ds : List Datum) : Prop :=
  inputs.map Program.ofText = ds.map Program.single

/-- If all forms are evaluated then so is each on its own, and the reports have what was shown on the
way and the last value. -/
theorem evalForms_ok {ds : List Datum} {inputs : List String} (hin : Matches inputs ds)
    {ses : Session} {a a' : Store} {last v : Value} (hab : a.Alike ses.store)
    (hrun : (SmallScheme.evalForms ses.depth ses.global last ds).perform a = (.ok v, a'))
    (hdraw : a'.draws = a.draws) :
    (∀ r ∈ evalForms ses inputs, r.result.isFailure = false) ∧
      (∃ vs, a'.shown.toList = a.shown.toList ++ vs ∧
        (evalForms ses inputs).flatMap (·.result.shown) = vs.map Value.reportText) ∧
      ∀ r ∈ (evalForms ses inputs).getLast?, r.result.value? = v.reported? := by
  -- the store of the whole run and that of the session go on alike after each form
  induction ds generalizing inputs ses a last with
  | nil =>
    cases List.map_eq_nil_iff.mp hin
    cases hrun
    exact ⟨nofun, ⟨[], (List.append_nil _).symm, rfl⟩, nofun⟩
  | cons d ds ih =>
    obtain ⟨input, inputs, rfl, hinput, hinputs⟩ := List.map_eq_cons_iff.mp hin
    rw [SmallScheme.evalForms_cons] at hrun
    rcases (oblivious_evalForm _ _ d).bind_cases (oblivious_evalForms _ _ · ds) hrun hdraw with
      ⟨e, he, _⟩ | ⟨w, a1, hform, hdraw1, hrest, hdraw2⟩
    · cases he
    obtain ⟨hresult, halike, hshown⟩ := ses.evaluate_single hinput hab hform hdraw1 nofun
    obtain ⟨hall, ⟨vs, hvs, htexts⟩, hlast⟩ :=
      @ih inputs hinputs (ses.evaluate input).2 a1 w halike hrest hdraw2
    rw [evalForms_cons, FormResult.ofOutcome_ok hresult]
    refine ⟨?_, ⟨(ses.evaluate input).1.shown ++ vs, ?_, ?_⟩, ?_⟩
    · exact List.forall_mem_cons.mpr ⟨rfl, hall⟩
    · rw [hvs, hshown, List.append_assoc]
    · rw [List.flatMap_cons, htexts, List.map_append]
      rfl
    · cases ds with
      | nil =>
        -- the value of the last form is the value of all
        cases List.map_eq_nil_iff.mp hinputs
        cases hrest
        intro r hr
        cases hr
        rfl
      | cons d' ds =>
        obtain ⟨input', inputs, rfl, _, _⟩ := List.map_eq_cons_iff.mp hinputs
        rw [evalForms_cons (ses.evaluate input).2] at hlast ⊢
        rwa [List.getLast?_cons_cons]

/-- If a form fails then it fails in the same way on its own, after as many successes as forms were
evaluated before it. -/
theorem evalForms_error {ds : List Datum} {inputs : List String} (hin : Matches inputs ds)
    {ses : Session} {a a' : Store} {last : Value} {e : Error} (hab : a.Alike ses.store)
    (hrun : (SmallScheme.evalForms ses.depth ses.global last ds).perform a = (.error e, a'))
    (hdraw : a'.draws = a.draws) (hdone : e ≠ .tooDeep) :
    ∃ (before : List FormReport) (entry : FormReport) (after : List FormReport),
      evalForms ses inputs = before ++ entry :: after ∧
      (∀ r ∈ before, r.result.isFailure = false) ∧ entry.result = .failure e ∧
      before.length = completed ses.depth ses.global ds a := by
  induction ds generalizing inputs ses a last with
  | nil => cases hrun
  | cons d ds ih =>
    obtain ⟨input, inputs, rfl, hinput, hinputs⟩ := List.map_eq_cons_iff.mp hin
    rw [evalForms_cons, completed]
    rw [SmallScheme.evalForms_cons] at hrun
    rcases (oblivious_evalForm _ _ d).bind_cases (oblivious_evalForms _ _ · ds) hrun hdraw with
      ⟨e', he, hform⟩ | ⟨v, a1, hform, hdraw1, hrest, hdraw2⟩
    · -- the whole run stops here; what the later reports say does not matter
      cases he
      obtain ⟨hresult, _, _⟩ := ses.evaluate_single hinput hab hform hdraw
        fun h => hdone (Except.error.inj h)
      rw [hform]
      exact ⟨[], _, _, rfl, nofun, FormResult.ofOutcome_error hresult, rfl⟩
    · obtain ⟨hresult, halike, _⟩ := ses.evaluate_single hinput hab hform hdraw1 nofun
      obtain ⟨before, entry, after, hsplit, hall, hentry, hcount⟩ :=
        @ih inputs hinputs (ses.evaluate input).2 a1 v halike hrest hdraw2
      rw [hform, FormResult.ofOutcome_ok hresult, hsplit]
      refine ⟨_ :: before, entry, after, rfl, List.forall_mem_cons.mpr ⟨rfl, hall⟩, hentry, ?_⟩
      rw [List.length_cons, hcount]
      rfl

theorem length_evalForms (ses : Session) (inputs : List String) :
    (evalForms ses inputs).length = inputs.length := by
  induction inputs generalizing ses with
  | nil => rfl
  | cons input inputs ih => rw [evalForms_cons, List.length_cons, ih, List.length_cons]

theorem forms_ofText (setup : Setup) (name text : String) :
    (ofText setup name text).forms = evalForms (.start setup) (Text.topLevelForms text) := by
  rw [ofText]

theorem countP_isFailure_eq_zero {entries : List FormReport}
    (h : ∀ r ∈ entries, r.result.isFailure = false) :
    entries.countP (·.result.isFailure) = 0 := by
  refine List.countP_eq_zero.mpr fun r hr => ?_
  rw [h r hr]
  exact Bool.false_ne_true

end Report

namespace Program
open Token

theorem eq_of_complete {p : Program} {ds : List Datum} (h : p.complete = .ok ds) : p = ⟨ds, none⟩ := by
  obtain ⟨forms, fault?⟩ := p
  cases fault? with
  | none =>
    cases h
    rfl
  | some fault => cases h

theorem ofTokens_nil : ofTokens [] = ⟨[], none⟩ := by
  rw [ofTokens]
  rfl

theorem ofTokens_ok {ts rest : List Token} {d : Datum} (h : Datum.read ts = (.ok d, rest)) :
    ofTokens ts = ⟨d :: (ofTokens rest).forms, (ofTokens rest).fault?⟩ := by
  have hne : ts ≠ [] := by
    rintro rfl
    cases h
  rw [ofTokens, dif_neg hne]
  simp only [h]

/-- What is read to its end does not change how the tokens after it are read. -/
theorem ofTokens_append {ts : List Token} (h : (ofTokens ts).fault? = none) (us : List Token) :
    ofTokens (ts ++ us) = ⟨(ofTokens ts).forms ++ (ofTokens us).forms, (ofTokens us).fault?⟩ := by
  fun_induction ofTokens ts with
  | case1 => rfl
  | case2 ts hts fault hread => cases h
  | case3 ts hts form hread hlt rest ih =>
    have hfirst : Datum.read ts = (.ok form, (Datum.read ts).2) := Prod.ext hread rfl
    rw [ofTokens_ok (Datum.readIn_append hfirst us), ih h]
    rfl

theorem fault_none_of_depth {ts : List Token} (hbal : Balanced 0 ts) (hzero : depth ts = 0) :
    (ofTokens ts).fault? = none := by
  have h := explains_fault ts
  rcases fault_balanced hbal with hnone | hend
  · exact hnone
  · rw [hend] at h
    exact absurd h.2 (by omega)

end Program

namespace Text.FormScan
open Token

/-- If the scan of a text ends outside of literals then so does the text. -/
theorem quoteAfter_eq_none {cs : List Char} (hb : '\\' ∉ cs)
    (hquote : (cs.foldl (fun s c => (s.step c).2) ({} : FormScan)).quote = none) :
    quoteAfter none cs = none := by
  have hp : ({} : FormScan).previous ≠ some '\\' := by decide
  exact (quote_foldl hp hb).symm.trans hquote

/-- Each form that is cut from a text is read as one of the forms of the text. -/
theorem forms_single {cs : List Char} (hb : '\\' ∉ cs) (hend : quoteAfter none cs = none)
    (hbal : Balanced 0 (toggleScan none [] cs)) :
    Report.Matches ((forms {} cs).map String.ofList)
      (Program.ofTokens (toggleScan none [] cs)).forms := by
  have hagree := agrees hb {} [] [] (Lockstep.fresh none (by decide)) hend hbal
  rw [Program.resume_nil] at hagree
  -- both lists are now taken as they come: nothing but the agreement of their items is used
  unfold Report.Matches
  generalize forms {} cs = texts at hagree
  generalize (Program.ofTokens (toggleScan none [] cs)).forms = ds at hagree
  induction texts generalizing ds with
  | nil =>
    cases List.map_eq_nil_iff.mp hagree.symm
    rfl
  | cons text texts ih =>
    obtain ⟨d, ds, rfl, hd, hds⟩ := List.map_eq_cons_iff.mp hagree.symm
    have hsingle : Program.ofText (String.ofList text) = .single d := Program.eq_of_complete hd.symm
    rw [List.map_cons, List.map_cons, List.map_cons, hsingle, ih ds hds.symm]

end Text.FormScan

theorem Session.shown_start (setup : Setup) : (Session.start setup).store.shown = #[] := rfl

/-- Evaluating a text in a new session evaluates its program. -/
theorem Session.evaluate_start {setup : Setup} {text : String} {whole : Outcome Value}
    {after : Session} (h : (Session.start setup).evaluate text = (whole, after)) :
    ((Program.ofText text).eval setup.depth (Session.start setup).global).perform
        (Session.start setup).store = (whole.result, after.store) ∧
      whole.shown = after.store.shown.toList := by
  cases h
  exact ⟨rfl, rfl⟩

/-- Running a text form by form agrees with evaluating it whole. Let `code` be the text without its
comments, and suppose that it has no backslash, that every quote is closed and that its parentheses
are balanced. Evaluate it whole in a new session, drawing no random number. If that gives a value then
all forms of the text are reported as successes, with the texts that were shown and the value at the
end. If it fails then the first failure that is reported is the same, and the successes before it are
as many as forms were evaluated. -/
theorem running_agrees (setup : Setup) (name : String) {text : String} {code : List Char}
    (hcode : code = Text.withoutComments text.toList) (hb : '\\' ∉ code)
    (hquote : (code.foldl (fun s c => (s.step c).2) ({} : Text.FormScan)).quote = none)
    (hbalanced : ∀ front, front <+: tokenize (String.ofList code) →
      front.count .rparen ≤ front.count .lparen)
    (htotal : (tokenize (String.ofList code)).count .rparen =
      (tokenize (String.ofList code)).count .lparen)
    {whole : Outcome Value} {after : Session}
    (hwhole : (Session.start setup).evaluate (String.ofList code) = (whole, after))
    (hdraw : after.store.draws = (Session.start setup).store.draws)
    (hdone : whole.result ≠ .error .tooDeep) :
    (∀ v, whole.result = .ok v →
      (Report.ofText setup name text).failed = 0 ∧
      (Report.ofText setup name text).total = (Program.ofText (String.ofList code)).forms.length ∧
      (Report.ofText setup name text).forms.flatMap (·.result.shown) =
        whole.shown.map Value.reportText ∧
      ∀ entry ∈ (Report.ofText setup name text).forms.getLast?,
        entry.result.value? = v.reported?) ∧
    ∀ err, whole.result = .error err →
      ∃ (before : List FormReport) (entry : FormReport) (rest : List FormReport),
        (Report.ofText setup name text).forms = before ++ entry :: rest ∧
        (∀ r ∈ before, r.result.isFailure = false) ∧ entry.result = .failure err ∧
        before.length = completed setup.depth (Session.start setup).global
          (Program.ofText (String.ofList code)).forms (Session.start setup).store := by
  have hend := Text.FormScan.quoteAfter_eq_none hb hquote
  have htokens := Token.tokenize_eq_toggleScan hb hend
  have hbal : Token.Balanced 0 (tokenize (String.ofList code)) := by
    refine Token.balanced_of_count fun front hfront => ?_
    rw [Nat.zero_add]
    exact hbalanced front hfront
  have hin : Report.Matches (Text.topLevelForms text) (Program.ofText (String.ofList code)).forms := by
    rw [Text.topLevelForms, ← hcode, Program.ofText, htokens]
    exact Text.FormScan.forms_single hb hend (htokens ▸ hbal)
  -- balanced tokens that leave nothing open are read to their end
  have hfault : (Program.ofText (String.ofList code)).fault? = none := by
    refine Program.fault_none_of_depth hbal ?_
    unfold Token.depth
    omega
  obtain ⟨hrun, hshown⟩ := Session.evaluate_start hwhole
  rw [Program.eval_of_complete hfault] at hrun
  -- both runs start in the store of a new session
  have hab := Store.Alike.refl (Session.start setup).store
  have hlength : (Report.evalForms (.start setup) (Text.topLevelForms text)).length =
      (Program.ofText (String.ofList code)).forms.length := by
    have h := congrArg List.length hin
    rw [List.length_map, List.length_map] at h
    exact (Report.length_evalForms _ _).trans h
  refine ⟨fun v hv => ?_, fun err herr => ?_⟩
  · rw [hv] at hrun
    obtain ⟨hall, ⟨vs, hvs, htexts⟩, hlast⟩ := Report.evalForms_ok hin hab hrun hdraw
    have hvs' : whole.shown = vs := by
      rw [hshown, hvs, Session.shown_start]
      exact List.nil_append vs
    rw [Report.failed, Report.total, Report.forms_ofText, hvs']
    exact ⟨Report.countP_isFailure_eq_zero hall, hlength, htexts, hlast⟩
  · rw [herr] at hrun hdone
    rw [Report.forms_ofText]
    exact Report.evalForms_error hin hab hrun hdraw fun h => hdone (congrArg Except.error h)

set_option maxRecDepth 20000 in
/-- A form that shows a text, a comment, a form that fails and one more. -/
theorem running_agrees_failure :
    let text := "(display ') ') ;; a\n(car #t) b"
    let code := "(display ') ') (car #t) b".toList
    let err := Error.application "car" (.runtime (.notList "car" "#t"))
    ((Session.start { depth := 5 }).evaluate (String.ofList code)).1.result = .error err ∧
      ∃ (before : List FormReport) (entry : FormReport) (rest : List FormReport),
        (Report.ofText { depth := 5 } "a" text).forms = before ++ entry :: rest ∧
        (∀ r ∈ before, r.result.isFailure = false) ∧ entry.result = .failure err ∧
        before.length = 1 := by
  intro text code err
  have hcode : code = Text.withoutComments text.toList := by decide
  have hquote : (code.foldl (fun s c => (s.step c).2) ({} : Text.FormScan)).quote = none := by decide
  have htokens : tokenize (String.ofList code) = [.lparen, .word "display", .word "') '", .rparen,
      .lparen, .word "car", .word "#t", .rparen, .word "b"] := by decide
  have hbalanced : ∀ front, front <+: tokenize (String.ofList code) →
      front.count .rparen ≤ front.count .lparen := by
    rw [htokens]
    intro front hfront
    rw [List.prefix_iff_eq_take.mp hfront]
    have hlength := hfront.length_le
    generalize front.length = n at hlength
    revert n
    decide
  have hforms : Program.ofText (String.ofList code) = ⟨[.list [.symbol "display", .symbol "') '"],
      .list [.symbol "car", .bool true], .symbol "b"], none⟩ := by
    have hfirst : Datum.read [.lparen, .word "display", .word "') '", .rparen, .lparen, .word "car",
        .word "#t", .rparen, .word "b"] = (.ok (.list [.symbol "display", .symbol "') '"]),
          [.lparen, .word "car", .word "#t", .rparen, .word "b"]) := by rfl
    have hsecond : Datum.read [.lparen, .word "car", .word "#t", .rparen, .word "b"] =
        (.ok (.list [.symbol "car", .bool true]), [.word "b"]) := by rfl
    have hthird : Datum.read [.word "b"] = (.ok (.symbol "b"), []) := by rfl
    rw [Program.ofText, htokens, Program.ofTokens_ok hfirst, Program.ofTokens_ok hsecond,
      Program.ofTokens_ok hthird, Program.ofTokens_nil]
  have hresult : ((Session.start { depth := 5 }).evaluate (String.ofList code)).1.result = .error err := by
    rw [Session.evaluate, hforms]
    rfl
  have hdraw : ((Session.start { depth := 5 }).evaluate (String.ofList code)).2.store.draws =
      (Session.start { depth := 5 }).store.draws := by
    rw [Session.evaluate, hforms]
    rfl
  have hdone : ((Session.start { depth := 5 }).evaluate (String.ofList code)).1.result ≠
      .error .tooDeep := by
    rw [hresult]
    exact fun h => Error.noConfusion (Except.error.inj h)
  obtain ⟨before, entry, rest, hsplit, hall, hentry, hcount⟩ :=
    (running_agrees { depth := 5 } "a" hcode (by decide) hquote hbalanced (by rw [htokens]; decide)
      (Prod.mk.eta (p := (Session.start { depth := 5 }).evaluate (String.ofList code))).symm hdraw hdone).2
      err hresult
  refine ⟨hresult, before, entry, rest, hsplit, hall, hentry, ?_⟩
  rw [hcount, hforms]
  rfl

end SmallScheme
