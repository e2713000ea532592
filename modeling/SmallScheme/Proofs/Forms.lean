import Mathlib.Data.List.Forall2
import SmallScheme.Eval

/-! Symbols, and special forms that are well formed: one equation for each says what it does, so that
nothing else has to look into how forms are taken apart. -/
namespace SmallScheme
open SpecialForm

/-- The value binds a name to an expression: it is the list of the two. -/
def Value.Binds (v : Value) (p : String × Value) : Prop := ∃ i, v = .list i [.symbol p.1, p.2]

namespace SpecialForm

theorem paramNames_symbols (form : SpecialForm) (names : List String) :
    form.paramNames (names.map .symbol) = .ok names := by
  induction names with
  | nil => rfl
  | cons name names ih =>
    rw [List.map_cons, paramNames, ih]
    rfl

theorem bindingPairs_ok (form : SpecialForm) (i : Nat) {bindings : List Value}
    {pairs : List (String × Value)} (h : List.Forall₂ Value.Binds bindings pairs) :
    form.bindingPairs (.list i bindings) = .ok pairs := by
  have hpairs : bindings.mapM bindingPair? = some pairs := by
    induction h with
    | nil => rfl
    | cons hbind _ ih =>
      obtain ⟨j, rfl⟩ := hbind
      rw [List.mapM_cons, ih]
      rfl
  rw [bindingPairs, hpairs]

theorem binds_of_bindingPair? {v : Value} {p : String × Value} (h : bindingPair? v = some p) :
    v.Binds p := by
  unfold bindingPair? at h
  split at h
  · next name e hitems =>
    cases h
    cases v with
    | list i items =>
      cases hitems
      exact ⟨i, rfl⟩
    | _ => cases hitems
  · cases h

theorem binds_of_mapM {bindings : List Value} {pairs : List (String × Value)}
    (h : bindings.mapM bindingPair? = some pairs) : List.Forall₂ Value.Binds bindings pairs := by
  induction bindings generalizing pairs with
  | nil =>
    cases h
    exact .nil
  | cons v bindings ih =>
    simp only [List.mapM_cons, Option.bind_eq_bind, Option.bind_eq_some_iff] at h
    obtain ⟨p, hp, ps, hps, hpairs⟩ := h
    cases hpairs
    exact .cons (binds_of_bindingPair? hp) (ih hps)

/-- Only a list of bindings gives names and expressions. -/
theorem binds_of_bindingPairs {form : SpecialForm} {v : Value} {pairs : List (String × Value)}
    (h : form.bindingPairs v = .ok pairs) :
    ∃ i bindings, v = .list i bindings ∧ List.Forall₂ Value.Binds bindings pairs := by
  unfold bindingPairs at h
  cases v with
  | list i bindings =>
    dsimp only at h
    split at h
    · next ps hps =>
      cases h
      exact ⟨i, bindings, rfl, binds_of_mapM hps⟩
    · cases h
  | _ => cases h

end SpecialForm

/-- A symbol in quotes stands for the text between them, whatever is bound. -/
theorem eval_literal {name text : String} (h : (Value.symbol name).literal? = some text)
    (depth : Nat) (s : ScopeId) : eval (depth + 1) (.symbol name) s = pure (.string text) := by
  change Task.evalStep (Task.perform depth) s (.symbol name) = _
  rw [Task.evalStep, h]

/-- Any other symbol stands for what it is bound to. -/
theorem eval_name {name : String} (h : (Value.symbol name).literal? = none) (depth : Nat)
    (s : ScopeId) : eval (depth + 1) (.symbol name) s = Action.lookup s name := by
  change Task.evalStep (Task.perform depth) s (.symbol name) = _
  rw [Task.evalStep, h]

/-- A form with a number of arguments that it accepts. -/
theorem eval_form (form : SpecialForm) {args : List Value}
    (hargs : form.arity.accepts args.length = true) (depth i : Nat) (s : ScopeId) :
    eval (depth + 1) (.list i (.symbol form.name :: args)) s = form.evaluate (eval depth) s args := by
  have hform : ofHead? (.symbol form.name) = some form := by
    cases form <;> rfl
  have hcheck : form.arity.check (some form.name) args.length = .ok () := if_pos hargs
  change Task.evalList (Task.perform depth) s (.symbol form.name) args = _
  rw [Task.evalList, hform]
  dsimp only
  rw [hcheck]
  rfl

/-- The body of a procedure that is defined: one expression as it is, and several as one list. -/
def procedureBody : List Value → Action Value
  | [e] => pure e
  | es => Action.newList (.symbol "begin" :: es)

section
variable (depth i j : Nat) (s : ScopeId) {bindings body : List Value} {pairs : List (String × Value)}

theorem eval_begin (hbody : body ≠ []) :
    eval (depth + 1) (.list i (.symbol "begin" :: body)) s = runAll (eval depth) s body := by
  have hargs : sequence.arity.accepts body.length = true :=
    decide_eq_true (List.length_pos_iff.mpr hbody)
  exact eval_form sequence hargs depth i s

theorem eval_cond {clauses : List Value} (hclauses : clauses ≠ []) :
    eval (depth + 1) (.list i (.symbol "cond" :: clauses)) s = runClauses (eval depth) s clauses := by
  have hargs : cond.arity.accepts clauses.length = true :=
    decide_eq_true (List.length_pos_iff.mpr hclauses)
  exact eval_form cond hargs depth i s

/-- The alternative may be missing, so it is a body of one expression at most. -/
theorem eval_if (test consequent : Value) {alternative : List Value}
    (halternative : alternative.length ≤ 1) :
    eval (depth + 1) (.list i (.symbol "if" :: test :: consequent :: alternative)) s = (do
      if (← eval depth test s).isTruthy then eval depth consequent s
      else runAll (eval depth) s alternative) := by
  have hargs : conditional.arity.accepts (test :: consequent :: alternative).length = true := by
    simp only [arity, Arity.accepts, List.length_cons, Bool.and_eq_true, decide_eq_true_eq]
    omega
  apply (eval_form conditional hargs depth i s).trans
  rcases alternative with _ | ⟨e, _ | ⟨e', es⟩⟩
  · rfl
  · rfl
  · simp only [List.length_cons] at halternative
    omega

theorem eval_lambda (names : List String) (body : Value) :
    eval (depth + 1) (.list i [.symbol "lambda", .list j (names.map .symbol), body]) s =
      Action.newClosure names body s := by
  apply (eval_form lambda rfl depth i s).trans
  rw [evaluate, runLambda, paramNames_symbols]
  rfl

theorem eval_defineName (name : String) (e : Value) :
    eval (depth + 1) (.list i [.symbol "define", .symbol name, e]) s = (do
      Action.define s name (← eval depth e s)
      return .unspecified) :=
  eval_form define rfl depth i s

theorem eval_assign (name : String) (e : Value) :
    eval (depth + 1) (.list i [.symbol "set!", .symbol name, e]) s = (do
      if (← get).contains s name then
        Action.set s name (← eval depth e s)
        return .unspecified
      else throw (.unbound name)) :=
  eval_form assign rfl depth i s

/-- Something in front of a body makes the two arguments that a form with a body takes at least. -/
theorem accepts_body (hbody : body ≠ []) (v : Value) :
    (Arity.atLeast 2).accepts (v :: body).length = true :=
  decide_eq_true (Nat.succ_le_succ (List.length_pos_iff.mpr hbody))

theorem eval_let (hbind : List.Forall₂ Value.Binds bindings pairs) (hbody : body ≠ []) :
    eval (depth + 1) (.list i (.symbol "let" :: .list j bindings :: body)) s = (do
      let vs ← runBindings (eval depth) s pairs
      let inner ← Action.extend s vs
      runAll (eval depth) inner body) := by
  apply (eval_form letIn (accepts_body hbody _) depth i s).trans
  rw [evaluate, runLet, bindingPairs_ok letIn j hbind]
  rfl

theorem eval_letSeq (hbind : List.Forall₂ Value.Binds bindings pairs) (hbody : body ≠ []) :
    eval (depth + 1) (.list i (.symbol "let*" :: .list j bindings :: body)) s = (do
      let outer ← Action.extend s []
      let inner ← runChain (eval depth) outer pairs
      runAll (eval depth) inner body) := by
  apply (eval_form letSeq (accepts_body hbody _) depth i s).trans
  rw [evaluate, runLetSeq, bindingPairs_ok letSeq j hbind]
  rfl

theorem eval_define (name : String) (params : List String) (hbody : body ≠ []) :
    eval (depth + 1) (.list i (.symbol "define" ::
        .list j (.symbol name :: params.map .symbol) :: body)) s = (do
      let e ← procedureBody body
      Action.define s name (← Action.newClosure params e s)
      return .unspecified) := by
  apply (eval_form define (accepts_body hbody _) depth i s).trans
  rw [evaluate, runDefine, paramNames_symbols]
  rcases body with _ | ⟨e, _ | ⟨e', es⟩⟩
  · exact absurd rfl hbody
  · simp only [Action.ofExcept, procedureBody, pure_bind]
  · rfl

end

theorem apply_closure {depth i : Nat} {params : List String} {body : Value} {s : ScopeId}
    {args : List Value} (h : args.length = params.length) :
    apply (depth + 1) (.closure i params body s) args =
      Action.extend s (params.zip args) >>= fun inner => eval depth body inner := by
  change Task.applyStep (Task.perform depth) (.closure i params body s) args = _
  rw [Task.applyStep, if_pos h.symm]
  rfl

end SmallScheme
