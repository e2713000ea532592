import SmallScheme.Proofs.Forms
import SmallScheme.Proofs.Isolation

/-! Which names an expression can bind in the scope that it is evaluated in.

The names are read off the expression alone. An expression runs some of its parts in its own scope
and others in copies of it, and which ones differs from form to form: a `let` evaluates its bindings
in the scope itself, a `let*` does not, and neither does so with its body. What procedures do when
they are applied concerns other scopes only. -/
namespace SmallScheme

namespace Value

def isSymbol : Value → Bool
  | symbol _ => true
  | _ => false

def isBinding (v : Value) : Bool := (SpecialForm.bindingPair? v).isSome

mutual
/-- The names that the evaluation of an expression may bind in its scope. -/
def writes : Value → List String
  | list _ (head :: args) =>
    match SpecialForm.ofHead? head with
    | none => writes head ++ writesAll args
    | some .conditional | some .sequence => writesAll args
    | some .cond => writesClauses args
    | some form => writesForm form args
  | _ => []
/-- The names that a form of any other kind binds. A quotation, a closure and a `let*` bind none,
nor do a definition, an assignment and a `let` that are malformed. -/
def writesForm : SpecialForm → List Value → List String
  | .define, [symbol name, e] | .assign, [symbol name, e] => name :: writes e
  | .define, list _ (symbol name :: params) :: _ :: _ => if params.all isSymbol then [name] else []
  | .letIn, list _ bindings :: _ :: _ =>
    if bindings.all isBinding then writesBindings bindings else []
  | _, _ => []
/-- The names that expressions bind one after another. -/
def writesAll : List Value → List String
  | [] => []
  | e :: es => writes e ++ writesAll es
/-- The names that the tests and bodies of clauses bind. -/
def writesClauses : List Value → List String
  | [] => []
  | list _ es :: clauses => writesAll es ++ writesClauses clauses
  | _ :: clauses => writesClauses clauses
/-- The names that the expressions of bindings bind. -/
def writesBindings : List Value → List String
  | [] => []
  | list _ [_, e] :: bindings => writes e ++ writesBindings bindings
  | _ :: bindings => writesBindings bindings
end

/-- The names that well-formed bindings bind are those that their expressions bind. -/
theorem writesBindings_eq_flatMap {bindings : List Value} {pairs : List (String × Value)}
    (h : List.Forall₂ Binds bindings pairs) :
    writesBindings bindings = pairs.flatMap fun p => p.2.writes := by
  induction h with
  | nil => rfl
  | cons hbind _ ih =>
    obtain ⟨i, rfl⟩ := hbind
    rw [writesBindings, ih, List.flatMap_cons]

theorem all_isBinding {bindings : List Value} {pairs : List (String × Value)}
    (h : List.Forall₂ Binds bindings pairs) : bindings.all isBinding = true := by
  induction h with
  | nil => rfl
  | cons hbind _ ih =>
    obtain ⟨i, rfl⟩ := hbind
    rw [List.all_cons, ih]
    rfl

theorem all_isSymbol {form : SpecialForm} {params : List Value} {names : List String}
    (h : form.paramNames params = .ok names) : params.all isSymbol = true := by
  induction params generalizing names with
  | nil => rfl
  | cons v params ih =>
    cases v with
    | symbol name =>
      obtain ⟨rest, hrest, -⟩ := Primitive.bind_eq_ok.mp h
      exact ih hrest
    | _ => cases h

end Value

namespace Action
variable {α β : Type} {s : ScopeId} {name : String}

/-- In every store that has the scope, the action leaves the name bound in it to what it was bound
to, or unbound, whether the action fails or not. -/
def Retains (s : ScopeId) (name : String) (a : Action α) : Prop :=
  ∀ st : Store, s.index < st.scopes.size →
    s.index < (a.perform st).2.scopes.size ∧ (a.perform st).2.get? s name = st.get? s name

theorem retains_pure (x : α) : Retains s name (pure x : Action α) := fun _ hs => ⟨hs, rfl⟩

theorem retains_throw (e : Error) : Retains s name (throw e : Action α) := fun _ hs => ⟨hs, rfl⟩

theorem retains_bind {a : Action α} {f : α → Action β} (ha : Retains s name a)
    (hf : ∀ x, Retains s name (f x)) : Retains s name (a >>= f) := by
  intro st hs
  obtain ⟨hs1, hget1⟩ := ha st hs
  rw [perform_bind]
  rcases hr : a.perform st with ⟨r, st1⟩
  rw [hr] at hs1 hget1
  cases r with
  | error e => exact ⟨hs1, hget1⟩
  | ok x =>
    obtain ⟨hs2, hget2⟩ := hf x st1 hs1
    exact ⟨hs2, hget2.trans hget1⟩

/-- What is checked first may be relied on afterwards. -/
theorem retains_ofExcept_bind {r : Except Error α} {f : α → Action β}
    (hf : ∀ x, r = .ok x → Retains s name (f x)) : Retains s name (ofExcept r >>= f) := by
  cases r with
  | error e => exact retains_throw e
  | ok x => exact hf x rfl

theorem retains_rethrow {a : Action α} {f : Error → Error} (ha : Retains s name a) :
    Retains s name (tryCatch a fun e => throw (f e)) := by
  intro st hs
  obtain ⟨hs1, hget1⟩ := ha st hs
  rw [perform_tryCatch]
  rcases hr : a.perform st with ⟨r, st1⟩
  rw [hr] at hs1 hget1
  cases r with
  | error e => exact ⟨hs1, hget1⟩
  | ok x => exact ⟨hs1, hget1⟩

theorem retains_newList (items : List Value) : Retains s name (newList items) :=
  fun _ hs => ⟨hs, rfl⟩

theorem retains_newClosure (params : List String) (body : Value) (t : ScopeId) :
    Retains s name (newClosure params body t) := fun _ hs => ⟨hs, rfl⟩

theorem retains_lookup (t : ScopeId) (key : String) : Retains s name (lookup t key) := by
  intro st hs
  rw [perform_lookup]
  cases st.get? t key with
  | none => exact ⟨hs, rfl⟩
  | some v => exact ⟨hs, rfl⟩

/-- Binding another name leaves this one alone. -/
theorem retains_define {key : String} (hkey : key ≠ name) (v : Value) :
    Retains s name (define s key v) := by
  intro st hs
  rw [perform_define, Store.size_define, Store.get?_define, if_neg fun h => hkey h.2.2]
  exact ⟨hs, rfl⟩

theorem retains_set {key : String} (hkey : key ≠ name) (v : Value) :
    Retains s name (set s key v) := by
  intro st hs
  rw [perform_set]
  split
  · exact retains_define hkey v st hs
  · exact ⟨hs, rfl⟩

/-- An action that keeps all scopes leaves the name alone in each of them. -/
theorem retains_of_keeps {a : Action α}
    (h : ∀ st : Store, st.Keeps (fun t => t.index < st.scopes.size) (a.perform st).2) :
    Retains s name a := by
  intro st hs
  have hkept : (a.perform st).2.scopes[s.index]? = st.scopes[s.index]? := h st s hs
  refine ⟨?_, ?_⟩
  · rw [Array.getElem?_eq_getElem hs] at hkept
    exact (Array.getElem?_eq_some_iff.mp hkept).1
  · rw [Store.get?, Store.get?, Store.bindings, Store.bindings, hkept]

end Action

open SmallScheme.Action

section
variable {s : ScopeId} {name : String} {run : Value → ScopeId → Action Value}
  (hrun : ∀ e, name ∉ e.writes → Retains s name (run e s))
include hrun

theorem retains_runAll {es : List Value} (h : name ∉ Value.writesAll es) :
    Retains s name (SpecialForm.runAll run s es) := by
  induction es with
  | nil => exact retains_pure _
  | cons e es ih =>
    rw [Value.writesAll, List.mem_append, not_or] at h
    cases es with
    | nil => exact hrun e h.1
    | cons e' es => exact retains_bind (hrun e h.1) fun _ => ih h.2

theorem retains_runClauses {clauses : List Value} (h : name ∉ Value.writesClauses clauses) :
    Retains s name (SpecialForm.runClauses run s clauses) := by
  induction clauses with
  | nil => exact retains_pure _
  | cons clause clauses ih =>
    unfold SpecialForm.runClauses
    split
    · contradiction
    · next i test e body clauses heq =>
      cases heq
      rw [Value.writesClauses, Value.writesAll, List.mem_append, List.mem_append, not_or,
        not_or] at h
      obtain ⟨⟨htest, hbody⟩, hclauses⟩ := h
      -- `else` stands where there is no test to evaluate
      split
      · exact retains_runAll hrun hbody
      · refine retains_bind (hrun test htest) fun v => ?_
        split
        · exact retains_runAll hrun hbody
        · exact ih hclauses
    · exact retains_throw _

theorem retains_runConditional {args : List Value} (h : name ∉ Value.writesAll args) :
    Retains s name (SpecialForm.runConditional run s args) := by
  unfold SpecialForm.runConditional
  split
  · next test consequent alternatives =>
    simp only [Value.writesAll, List.mem_append, not_or] at h
    obtain ⟨htest, hconsequent, halternatives⟩ := h
    refine retains_bind (hrun test htest) fun v => ?_
    split
    · exact hrun consequent hconsequent
    · split
      · exact retains_pure _
      · next alternative _ =>
        rw [Value.writesAll, List.mem_append, not_or] at halternatives
        exact hrun alternative halternatives.1
  · exact retains_throw _

theorem retains_runBindings {pairs : List (String × Value)}
    (h : name ∉ pairs.flatMap fun p => p.2.writes) :
    Retains s name (SpecialForm.runBindings run s pairs) := by
  induction pairs with
  | nil => exact retains_pure _
  | cons p pairs ih =>
    rw [List.flatMap_cons, List.mem_append, not_or] at h
    refine retains_bind (hrun p.2 h.1) fun v => ?_
    exact retains_bind (ih h.2) fun vs => retains_pure _

theorem retains_runDefine {args : List Value} (hargs : 2 ≤ args.length)
    (h : name ∉ Value.writesForm .define args) :
    Retains s name (SpecialForm.runDefine run s args) := by
  unfold SpecialForm.runDefine
  split
  · next key e =>
    rw [Value.writesForm, List.mem_cons, not_or] at h
    refine retains_bind (hrun e h.2) fun v => ?_
    exact retains_bind (retains_define (Ne.symm h.1) v) fun _ => retains_pure _
  · next i key params body =>
    refine retains_ofExcept_bind fun names hnames => ?_
    -- there is a body, so what is defined is written
    obtain ⟨e, es, rfl⟩ : ∃ e es, body = e :: es :=
      List.exists_cons_of_length_pos (Nat.le_of_succ_le_succ hargs)
    rw [Value.writesForm, if_pos (Value.all_isSymbol hnames), List.mem_singleton] at h
    -- one expression is the body as it is, and several become one list first
    have hdefine : ∀ e, Retains s name (do
        Action.define s key (← Action.newClosure names e s)
        return Value.unspecified) := fun e =>
      retains_bind (retains_newClosure names e s) fun v =>
        retains_bind (retains_define (Ne.symm h) v) fun _ => retains_pure _
    split
    · exact retains_bind (retains_pure _) hdefine
    · exact retains_bind (retains_newList _) hdefine
  all_goals exact retains_throw _

theorem retains_runAssign {args : List Value} (h : name ∉ Value.writesForm .assign args) :
    Retains s name (SpecialForm.runAssign run s args) := by
  unfold SpecialForm.runAssign
  split
  · next key e =>
    rw [Value.writesForm, List.mem_cons, not_or] at h
    -- whether the name is bound is asked before the expression is evaluated and again after
    refine retains_bind (fun _ hs => ⟨hs, rfl⟩) fun now => ?_
    split
    · refine retains_bind (hrun e h.2) fun v => ?_
      exact retains_bind (retains_set (Ne.symm h.1) v) fun _ => retains_pure _
    · exact retains_throw _
  all_goals exact retains_throw _

omit hrun in
theorem retains_runLambda (args : List Value) : Retains s name (SpecialForm.runLambda s args) := by
  unfold SpecialForm.runLambda
  split
  · exact retains_ofExcept_bind fun names _ => retains_newClosure names _ s
  all_goals exact retains_throw _

/-- The bindings of a `let` run in the scope, and its body in a copy. -/
theorem retains_runLet (hcopy : ∀ more body, Retains s name (do
      SpecialForm.runAll run (← Action.extend s more) body))
    {args : List Value} (hargs : 2 ≤ args.length) (h : name ∉ Value.writesForm .letIn args) :
    Retains s name (SpecialForm.runLet run s args) := by
  unfold SpecialForm.runLet
  split
  · next v body =>
    refine retains_ofExcept_bind fun pairs hpairs => ?_
    obtain ⟨i, bindings, rfl, hbinds⟩ := SpecialForm.binds_of_bindingPairs hpairs
    obtain ⟨e, es, rfl⟩ : ∃ e es, body = e :: es :=
      List.exists_cons_of_length_pos (Nat.le_of_succ_le_succ hargs)
    rw [Value.writesForm, if_pos (Value.all_isBinding hbinds),
      Value.writesBindings_eq_flatMap hbinds] at h
    exact retains_bind (retains_runBindings hrun h) fun more => hcopy more (e :: es)
  · exact retains_throw _

theorem retains_evalAll {below : Task → Action Value} (hbelow : ∀ e, below (.eval e s) = run e s)
    {es : List Value} (h : name ∉ Value.writesAll es) :
    Retains s name (Task.evalAll below s es) := by
  induction es with
  | nil => exact retains_pure _
  | cons e es ih =>
    rw [Value.writesAll, List.mem_append, not_or] at h
    refine retains_bind (hbelow e ▸ hrun e h.1) fun v => ?_
    exact retains_bind (ih h.2) fun vs => retains_pure _

end

section
variable {s : ScopeId} {name : String} {depth : Nat}
  (hrun : ∀ e, name ∉ e.writes → Retains s name (eval depth e s))
include hrun

theorem retains_evaluate {i : Nat} {head : Value} {args : List Value} {form : SpecialForm}
    (hform : SpecialForm.ofHead? head = some form) (hargs : form.arity.accepts args.length = true)
    (h : name ∉ (Value.list i (head :: args)).writes) :
    Retains s name (form.evaluate (eval depth) s args) := by
  rw [Value.writes.eq_def] at h
  simp only [hform] at h
  cases form with
  | quote => exact retains_pure _
  | conditional => exact retains_runConditional hrun h
  | cond => exact retains_runClauses hrun h
  | define => exact retains_runDefine hrun (of_decide_eq_true hargs) h
  | assign => exact retains_runAssign hrun h
  | lambda => exact retains_runLambda args
  | letIn =>
    -- the body runs in a copy, and what is done there keeps this scope as it is
    refine retains_runLet hrun (fun more body => ?_) (of_decide_eq_true hargs) h
    exact retains_of_keeps (body_keeps depth s more body)
  | letSeq => exact retains_of_keeps (chain_keeps depth s args)
  | sequence => exact retains_runAll hrun h

theorem retains_evalApplication {head : Value} {args : List Value} (hhead : name ∉ head.writes)
    (hargs : name ∉ Value.writesAll args) :
    Retains s name (Task.evalApplication (Task.perform depth) s head args) := by
  refine retains_bind (hrun head hhead) fun procedure => ?_
  refine retains_bind (retains_evalAll hrun (fun _ => rfl) hargs) fun vs => ?_
  -- whatever the procedure is, its body does not run in this scope
  split
  · exact retains_rethrow (retains_of_keeps (apply_keeps depth procedure vs))
  · exact retains_throw _

theorem retains_evalList {i : Nat} {head : Value} {args : List Value}
    (h : name ∉ (Value.list i (head :: args)).writes) :
    Retains s name (Task.evalList (Task.perform depth) s head args) := by
  rw [Task.evalList]
  split
  · next form hform =>
    -- a form is evaluated only on as many arguments as it takes
    refine retains_ofExcept_bind fun _ hcheck => retains_evaluate hrun hform ?_ h
    unfold Arity.check at hcheck
    split at hcheck
    · assumption
    · cases hcheck
  · next hform =>
    rw [Value.writes.eq_def] at h
    simp only [hform, List.mem_append, not_or] at h
    exact retains_evalApplication hrun h.1 h.2

end

/-- Evaluation at any depth leaves alone, in its scope, the names that the expression does not
write. -/
theorem retains_eval (s : ScopeId) (name : String) (depth : Nat) :
    ∀ e : Value, name ∉ e.writes → Retains s name (eval depth e s) := by
  induction depth with
  | zero => exact fun _ _ => retains_throw _
  | succ depth ih =>
    intro e h
    change Retains s name (Task.evalStep (Task.perform depth) s e)
    unfold Task.evalStep
    split
    · split
      · exact retains_pure _
      · exact retains_lookup s _
    · exact retains_evalList ih h
    · exact retains_pure _

/-- The names that an expression writes are all that its evaluation can bind or bind again in its
scope. Whether evaluation gives a value or fails, and whatever procedures it applies on the way,
every other name is bound to what it was bound to before, or not bound at all. -/
theorem eval_keeps_unwritten (depth : Nat) (e : Value) (s : ScopeId) (st : Store)
    (hs : s.index < st.scopes.size) (name : String) (h : name ∉ e.writes) :
    ((eval depth e s).perform st).2.get? s name = st.get? s name :=
  (retains_eval s name depth e h st hs).2

/-- A `let` writes what its bindings define and a `let*` does not; what their bodies define is gone,
also when evaluation fails in the end. -/
theorem eval_keeps_unwritten_bodies :
    let define (name : String) : Value := .list 0 [.symbol "define", .symbol name, .bool true]
    let bind (form name inner : String) : Value :=
      .list 1 [.symbol form, .list 2 [.list 3 [.symbol "a", define name]], define inner]
    let e := Value.list 4 [.symbol "begin", bind "let" "x" "y", bind "let*" "y" "x", .symbol "z"]
    let st : Store := { scopes := #[Bindings.overlay ∅ [("y", .nil)]] }
    let ran := (eval 5 e ⟨0⟩).perform st
    e.writes = ["x"] ∧ (ran.1 matches .error (.unbound "z")) = true ∧
      (ran.2.get? ⟨0⟩ "x" matches some (.bool true)) = true ∧
      ran.2.get? ⟨0⟩ "y" = some .nil ∧ ran.2.get? ⟨0⟩ "a" = none := by
  intro define bind e st ran
  have hwrites : e.writes = ["x"] := by decide
  have hkept : ∀ name, name ≠ "x" → ran.2.get? ⟨0⟩ name = st.get? ⟨0⟩ name := by
    intro name hname
    exact eval_keeps_unwritten 5 e ⟨0⟩ st (by decide) name (by simpa [hwrites] using hname)
  refine ⟨hwrites, ?_, ?_, hkept "y" (by decide), hkept "a" (by decide)⟩
  · decide +kernel
  · decide +kernel

end SmallScheme
