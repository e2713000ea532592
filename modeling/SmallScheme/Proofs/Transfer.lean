import SmallScheme.Eval
import SmallScheme.Proofs.Renaming

/-! Relations between actions that carry over to evaluation.

Two evaluations are compared by a relation between actions. Where the relation is kept by every
primitive action, by doing one action after another and by marking errors, it is kept by each form and
each procedure, from one depth to the next. -/
namespace SmallScheme

/-- Bindings with their values renamed. -/
abbrev renameBindings (ρ : Renaming) (more : List (String × Value)) : List (String × Value) :=
  more.map fun p => (p.1, p.2.rename ρ)

theorem renameBindings_eq {ρ : Renaming} {more : List (String × Value)}
    (h : ∀ p ∈ more, p.2.rename ρ = p.2) : renameBindings ρ more = more := by
  calc renameBindings ρ more = more.map id := List.map_congr_left fun p hp => Prod.ext rfl (h p hp)
    _ = more := List.map_id more

/-- The task with its identities and scopes renamed. -/
def Task.rename (ρ : Renaming) : Task → Task
  | .eval e s => .eval (e.rename ρ) (ρ.scope s)
  | .apply procedure args => .apply (procedure.rename ρ) (args.map (Value.rename ρ))

theorem Task.rename_same (t : Task) : t.rename Renaming.same = t := by
  cases t with
  | eval e s => rw [rename, Value.rename_same]; rfl
  | apply procedure args => rw [rename, Value.rename_same, List.map_id]; rfl

namespace Simulation
variable {ρ : Renaming}

/-- A clause whose test is not `else` is decided by its test. -/
theorem runClauses_cons {run : Value → ScopeId → Action Value} {s : ScopeId} {i : Nat}
    {test e : Value} {body clauses : List Value} (ht : test ≠ .symbol "else") :
    SpecialForm.runClauses run s (.list i (test :: e :: body) :: clauses) = (do
      if (← run test s).isTruthy then SpecialForm.runAll run s (e :: body)
      else SpecialForm.runClauses run s clauses) := by
  rw [SpecialForm.runClauses]
  exact ht

theorem rename_eq_symbol {v : Value} {name : String} :
    v.rename ρ = .symbol name ↔ v = .symbol name := by
  cases v <;> simp

theorem paramNames_rename (form : SpecialForm) (vs : List Value) :
    form.paramNames (vs.map (Value.rename ρ)) = (form.paramNames vs).map id := by
  induction vs with
  | nil => rfl
  | cons v vs ih =>
    cases v with
    | symbol name =>
      rw [List.map_cons, Value.rename_symbol, SpecialForm.paramNames, SpecialForm.paramNames, ih]
      cases form.paramNames vs <;> rfl
    | list i items =>
      have ht := Value.text_rename ρ (.list i items)
      exact congrArg (fun t => Except.error (Error.type (.parameterNotSymbol form.name t))) ht
    | _ => rfl

theorem bindingPair?_rename (v : Value) :
    SpecialForm.bindingPair? (v.rename ρ) =
      (SpecialForm.bindingPair? v).map fun p => (p.1, p.2.rename ρ) := by
  unfold SpecialForm.bindingPair?
  rw [Value.items?_rename]
  rcases v.items? with _ | _ | ⟨w, _ | ⟨e, _ | ⟨x, rest⟩⟩⟩
  · rfl
  · rfl
  · cases w <;> rfl
  · cases w <;> rfl
  · cases w <;> rfl

theorem mapM_bindingPair?_rename (items : List Value) :
    (items.map (Value.rename ρ)).mapM SpecialForm.bindingPair? =
      (items.mapM SpecialForm.bindingPair?).map (renameBindings ρ) := by
  induction items with
  | nil => rfl
  | cons v vs ih =>
    rw [List.map_cons, List.mapM_cons, List.mapM_cons, bindingPair?_rename, ih]
    cases SpecialForm.bindingPair? v with
    | none => rfl
    | some p => cases vs.mapM SpecialForm.bindingPair? <;> rfl

theorem bindingPairs_rename (form : SpecialForm) (bindings : Value) :
    form.bindingPairs (bindings.rename ρ) = (form.bindingPairs bindings).map (renameBindings ρ) := by
  unfold SpecialForm.bindingPairs
  rw [Value.text_rename]
  cases bindings with
  | list i items =>
    rw [Value.rename_list]
    dsimp only
    rw [mapM_bindingPair?_rename]
    cases items.mapM SpecialForm.bindingPair? <;> rfl
  | _ => rfl

end Simulation

/-- A relation between actions on stores that a renaming takes to one another. `Rel f p q` compares `p`
with `q`, whose result is to be that of `p` under `f`. -/
structure Transfer (ρ : Renaming) where
  Rel : ∀ {α β : Type}, (α → β) → Action α → Action β → Prop
  rel_pure : ∀ {α β : Type} {f : α → β} {x : α} {y : β}, y = f x → Rel f (pure x) (pure y)
  rel_throw : ∀ {α β : Type} {f : α → β} {e e' : Error}, e' = e → Rel f (throw e) (throw e')
  rel_bind : ∀ {α β γ δ : Type} {f : α → β} {g : γ → δ} {p : Action α} {q : Action β}
    {k : α → Action γ} {l : β → Action δ}, Rel f p q → (∀ x, Rel g (k x) (l (f x))) →
      Rel g (p >>= k) (q >>= l)
  /-- An error may be changed on its way, but not so that running too deep is hidden. -/
  rel_rethrow : ∀ {α β : Type} {f : α → β} {p : Action α} {q : Action β} {g : Error → Error},
    g .tooDeep = .tooDeep → Rel f p q →
      Rel f (tryCatch p fun e => throw (g e)) (tryCatch q fun e => throw (g e))
  rel_identity : Rel ρ.identity Action.freshIdentity Action.freshIdentity
  rel_extend : ∀ (s : ScopeId) (more : List (String × Value)),
    Rel ρ.scope (Action.extend s more) (Action.extend (ρ.scope s) (renameBindings ρ more))
  rel_define : ∀ (s : ScopeId) (name : String) (v : Value),
    Rel id (Action.define s name v) (Action.define (ρ.scope s) name (v.rename ρ))
  rel_display : ∀ v : Value, Rel id (Action.display v) (Action.display (v.rename ρ))
  rel_draw : Rel id Action.draw Action.draw
  rel_lookup : ∀ (s : ScopeId) (name : String),
    Rel (Value.rename ρ) (Action.lookup s name) (Action.lookup (ρ.scope s) name)
  /-- Whether a name is bound is the same on both sides. -/
  rel_ifBound : ∀ {α β : Type} {f : α → β} (s : ScopeId) (name : String) {p p' : Action α}
    {q q' : Action β}, Rel f p q → Rel f p' q' →
      Rel f (do if (← get).contains s name then p else p')
        (do if (← get).contains (ρ.scope s) name then q else q')

namespace Transfer
variable {ρ : Renaming}

theorem rel_ofExcept (T : Transfer ρ) {α β : Type} {f : α → β} {r : Except Error α}
    {r' : Except Error β} (h : r' = r.map f) :
    T.Rel f (Action.ofExcept r) (Action.ofExcept r') := by
  subst h
  cases r with
  | error e => exact T.rel_throw rfl
  | ok x => exact T.rel_pure rfl

theorem rel_newList (T : Transfer ρ) (items : List Value) :
    T.Rel (Value.rename ρ) (Action.newList items)
      (Action.newList (items.map (Value.rename ρ))) := by
  refine T.rel_bind T.rel_identity fun i => ?_
  exact T.rel_pure (Value.rename_list ρ i items).symm

theorem rel_newClosure (T : Transfer ρ) (params : List String) (body : Value) (s : ScopeId) :
    T.Rel (Value.rename ρ) (Action.newClosure params body s)
      (Action.newClosure params (body.rename ρ) (ρ.scope s)) := by
  refine T.rel_bind T.rel_identity fun i => ?_
  exact T.rel_pure (Value.rename_closure ρ i params body s).symm

theorem rel_defineClosure (T : Transfer ρ) (s : ScopeId) (name : String) (params : List String)
    (body : Value) :
    T.Rel (Value.rename ρ)
      (do
        Action.define s name (← Action.newClosure params body s)
        return .unspecified)
      (do
        Action.define (ρ.scope s) name (← Action.newClosure params (body.rename ρ) (ρ.scope s))
        return .unspecified) := by
  refine T.rel_bind (T.rel_newClosure params body s) fun v => ?_
  exact T.rel_bind (T.rel_define s name v) fun _ => T.rel_pure rfl

theorem rel_set (T : Transfer ρ) (s : ScopeId) (name : String) (v : Value) :
    T.Rel id (Action.set s name v) (Action.set (ρ.scope s) name (v.rename ρ)) :=
  T.rel_ifBound s name (T.rel_define s name v) (T.rel_throw rfl)

/-- A combinator goes on with the procedure and the items that it was given. -/
theorem rel_operands (T : Transfer ρ) (op : String) (f v : Value) {k l : Value → List Value → Action Value}
    (hk : ∀ g vs, T.Rel (Value.rename ρ) (k g vs)
      (l (g.rename ρ) (vs.map (Value.rename ρ)))) :
    T.Rel (Value.rename ρ)
      (do
        let g ← Action.ofExcept (Task.procedureArg op f)
        let items ← Action.ofExcept (Primitive.items op v)
        k g items)
      (do
        let g ← Action.ofExcept (Task.procedureArg op (f.rename ρ))
        let items ← Action.ofExcept (Primitive.items op (v.rename ρ))
        l g items) := by
  refine T.rel_bind (f := Value.rename ρ) (T.rel_ofExcept ?_) fun g => ?_
  · unfold Task.procedureArg
    rw [Value.isProcedure_rename, Value.text_rename]
    split <;> rfl
  · exact T.rel_bind (T.rel_ofExcept (Primitive.items_rename ρ op v)) fun vs => hk g vs

theorem rel_wrongCount (T : Transfer ρ) (n : Nat) (args : List Value) :
    T.Rel (Value.rename ρ) (Task.wrongCount n args)
      (Task.wrongCount n (args.map (Value.rename ρ))) := by
  refine T.rel_throw ?_
  rw [List.length_map]

section
variable {T : Transfer ρ} {below below' : Task → Action Value}
  (hb : ∀ t : Task, T.Rel (Value.rename ρ) (below t) (below' (t.rename ρ)))
include hb

theorem rel_images (f : Value) (vs : List Value) :
    T.Rel (List.map (Value.rename ρ)) (Task.images below f vs)
      (Task.images below' (f.rename ρ) (vs.map (Value.rename ρ))) := by
  induction vs with
  | nil => exact T.rel_pure rfl
  | cons v vs ih =>
    refine T.rel_bind (hb (.apply f [v])) fun w => ?_
    refine T.rel_bind ih fun ws => ?_
    exact T.rel_pure rfl

theorem rel_keep (f : Value) (vs : List Value) :
    T.Rel (List.map (Value.rename ρ)) (Task.keep below f vs)
      (Task.keep below' (f.rename ρ) (vs.map (Value.rename ρ))) := by
  induction vs with
  | nil => exact T.rel_pure rfl
  | cons v vs ih =>
    refine T.rel_bind (hb (.apply f [v])) fun w => ?_
    refine T.rel_bind ih fun ws => ?_
    refine T.rel_pure ?_
    rw [Value.isTruthy_rename]
    split <;> rfl

theorem rel_accumulate (f acc : Value) (vs : List Value) :
    T.Rel (Value.rename ρ) (Task.accumulate below f acc vs)
      (Task.accumulate below' (f.rename ρ) (acc.rename ρ) (vs.map (Value.rename ρ))) := by
  induction vs generalizing acc with
  | nil => exact T.rel_pure rfl
  | cons v vs ih =>
    refine T.rel_bind (hb (.apply f [acc, v])) fun w => ?_
    exact ih w

theorem rel_evalAll (s : ScopeId) (es : List Value) :
    T.Rel (List.map (Value.rename ρ)) (Task.evalAll below s es)
      (Task.evalAll below' (ρ.scope s) (es.map (Value.rename ρ))) := by
  induction es with
  | nil => exact T.rel_pure rfl
  | cons e es ih =>
    refine T.rel_bind (hb (.eval e s)) fun v => ?_
    refine T.rel_bind ih fun vs => ?_
    exact T.rel_pure rfl

theorem rel_combine (c : Combinator) (args : List Value) :
    T.Rel (Value.rename ρ) (Task.combine below c args)
      (Task.combine below' c (args.map (Value.rename ρ))) := by
  cases c with
  | map =>
    rcases args with _ | ⟨f, _ | ⟨v, _ | ⟨w, args⟩⟩⟩
    · exact T.rel_wrongCount 2 []
    · exact T.rel_wrongCount 2 [f]
    · refine T.rel_operands "map" f v fun g vs => ?_
      exact T.rel_bind (rel_images hb g vs) fun ws => T.rel_newList ws
    · exact T.rel_wrongCount 2 (f :: v :: w :: args)
  | filter =>
    rcases args with _ | ⟨f, _ | ⟨v, _ | ⟨w, args⟩⟩⟩
    · exact T.rel_wrongCount 2 []
    · exact T.rel_wrongCount 2 [f]
    · refine T.rel_operands "filter" f v fun g vs => ?_
      exact T.rel_bind (rel_keep hb g vs) fun ws => T.rel_newList ws
    · exact T.rel_wrongCount 2 (f :: v :: w :: args)
  | fold | reduce =>
    rcases args with _ | ⟨f, _ | ⟨init, _ | ⟨v, _ | ⟨w, args⟩⟩⟩⟩
    · exact T.rel_wrongCount 3 []
    · exact T.rel_wrongCount 3 [f]
    · exact T.rel_wrongCount 3 [f, init]
    · refine T.rel_operands "fold" f v fun g vs => ?_
      exact rel_accumulate hb g init vs
    · exact T.rel_wrongCount 3 (f :: init :: v :: w :: args)
  | apply =>
    rcases args with _ | ⟨f, _ | ⟨v, _ | ⟨w, args⟩⟩⟩
    · exact T.rel_wrongCount 2 []
    · exact T.rel_wrongCount 2 [f]
    · refine T.rel_operands "apply" f v fun g vs => ?_
      exact hb (.apply g vs)
    · exact T.rel_wrongCount 2 (f :: v :: w :: args)

theorem rel_invoke (op : Builtin) (args : List Value) :
    T.Rel (Value.rename ρ) (Task.invoke below op args)
      (Task.invoke below' op (args.map (Value.rename ρ))) := by
  cases op with
  | primitive p =>
    refine T.rel_bind (T.rel_ofExcept (Primitive.reply_rename ρ p args)) fun r => ?_
    cases r with
    | value v => exact T.rel_pure rfl
    | fresh items => exact T.rel_newList items
  | combinator c => exact rel_combine hb c args
  | random =>
    rcases args with _ | ⟨v, args⟩
    · exact T.rel_bind T.rel_draw fun x => T.rel_pure rfl
    · exact T.rel_wrongCount 0 (v :: args)
  | display =>
    rcases args with _ | ⟨v, _ | ⟨w, args⟩⟩
    · exact T.rel_wrongCount 1 []
    · exact T.rel_bind (T.rel_display v) fun _ => T.rel_pure rfl
    · exact T.rel_wrongCount 1 (v :: w :: args)

theorem rel_applyStep (procedure : Value) (args : List Value) :
    T.Rel (Value.rename ρ) (Task.applyStep below procedure args)
      (Task.applyStep below' (procedure.rename ρ) (args.map (Value.rename ρ))) := by
  cases procedure with
  | builtin op =>
    refine T.rel_bind (f := id) (T.rel_ofExcept ?_) fun _ => rel_invoke hb op args
    rw [List.length_map]
    cases op.arity.check (some op.name) args.length <;> rfl
  | closure i params body s =>
    rw [Value.rename_closure]
    unfold Task.applyStep
    dsimp only
    rw [List.length_map]
    split
    · refine T.rel_bind ?_ fun inner => hb (.eval body inner)
      have hzip : params.zip (args.map (Value.rename ρ)) = renameBindings ρ (params.zip args) := by
        rw [List.zip_map_right]
        rfl
      rw [hzip]
      exact T.rel_extend s _
    · exact T.rel_throw rfl
  | list i items =>
    have ht := Value.text_rename ρ (.list i items)
    exact T.rel_throw (congrArg (fun t => Error.type (.notProcedure t)) ht)
  | _ => exact T.rel_throw rfl

end

open Simulation

theorem rel_runLambda (T : Transfer ρ) (s : ScopeId) (args : List Value) :
    T.Rel (Value.rename ρ) (SpecialForm.runLambda s args)
      (SpecialForm.runLambda (ρ.scope s) (args.map (Value.rename ρ))) := by
  rcases args with _ | ⟨v, _ | ⟨body, _ | ⟨w, args⟩⟩⟩
  · exact T.rel_throw rfl
  · cases v <;> exact T.rel_throw rfl
  · cases v with
    | list i params =>
      rw [List.map_cons, Value.rename_list]
      refine T.rel_bind (T.rel_ofExcept (paramNames_rename _ params)) fun names => ?_
      exact T.rel_newClosure names body s
    | _ => exact T.rel_throw rfl
  · have hl : (args.map (Value.rename ρ)).length = args.length := List.length_map _
    cases v <;>
      exact T.rel_throw (congrArg (fun n => Error.arity 2 (n + 3) (some SpecialForm.lambda.name)) hl)

section
variable {T : Transfer ρ} {run run' : Value → ScopeId → Action Value}
  (hr : ∀ e s, T.Rel (Value.rename ρ) (run e s) (run' (e.rename ρ) (ρ.scope s)))
include hr

theorem rel_runAll (s : ScopeId) (es : List Value) :
    T.Rel (Value.rename ρ) (SpecialForm.runAll run s es)
      (SpecialForm.runAll run' (ρ.scope s) (es.map (Value.rename ρ))) := by
  induction es with
  | nil => exact T.rel_pure rfl
  | cons e es ih =>
    cases es with
    | nil => exact hr e s
    | cons e' es => exact T.rel_bind (hr e s) fun _ => ih

theorem rel_runClauses (s : ScopeId) (clauses : List Value) :
    T.Rel (Value.rename ρ) (SpecialForm.runClauses run s clauses)
      (SpecialForm.runClauses run' (ρ.scope s) (clauses.map (Value.rename ρ))) := by
  induction clauses with
  | nil => exact T.rel_pure rfl
  | cons c cs ih =>
    have malformed (v : Value) : T.Rel (Value.rename ρ)
        (throw (.type (.malformedClause v.text)))
        (throw (.type (.malformedClause (v.rename ρ).text))) :=
      T.rel_throw (congrArg (fun t => Error.type (.malformedClause t)) (Value.text_rename ρ v))
    cases c with
    | list i items =>
      rcases items with _ | ⟨test, _ | ⟨e, body⟩⟩
      · exact malformed (.list i [])
      · exact malformed (.list i [test])
      · -- the test is `else` in both or in neither
        by_cases ht : test = .symbol "else"
        · subst ht
          rw [List.map_cons, Value.rename_list, List.map_cons, List.map_cons, Value.rename_symbol,
            SpecialForm.runClauses, SpecialForm.runClauses]
          exact rel_runAll hr s (e :: body)
        · rw [List.map_cons, Value.rename_list, List.map_cons, List.map_cons, runClauses_cons ht,
            runClauses_cons fun h => ht (rename_eq_symbol.mp h)]
          refine T.rel_bind (hr test s) fun v => ?_
          rw [Value.isTruthy_rename]
          split
          · exact rel_runAll hr s (e :: body)
          · exact ih
    | _ => exact malformed _

theorem rel_runDefine (s : ScopeId) (args : List Value) :
    T.Rel (Value.rename ρ) (SpecialForm.runDefine run s args)
      (SpecialForm.runDefine run' (ρ.scope s) (args.map (Value.rename ρ))) := by
  have wrong (args : List Value) : T.Rel (Value.rename ρ)
      (throw (.type (.nameNotSymbol SpecialForm.define.name (args.head?.getD .nil).text)))
      (throw (.type (.nameNotSymbol SpecialForm.define.name
        ((args.map (Value.rename ρ)).head?.getD .nil).text))) := by
    refine T.rel_throw ?_
    cases args with
    | nil => rfl
    | cons v args => exact congrArg (fun t => Error.type (.nameNotSymbol _ t)) (Value.text_rename ρ v)
  cases args with
  | nil => exact wrong []
  | cons v args =>
    cases v with
    | symbol name =>
      rcases args with _ | ⟨e, _ | ⟨e', args⟩⟩
      · exact T.rel_throw rfl
      · refine T.rel_bind (hr e s) fun x => ?_
        exact T.rel_bind (T.rel_define s name x) fun _ => T.rel_pure rfl
      · have hl : (args.map (Value.rename ρ)).length = args.length := List.length_map _
        exact T.rel_throw
          (congrArg (fun n => Error.arity 2 (n + 3) (some SpecialForm.define.name)) hl)
    | list i items =>
      have unnamed := Value.text_rename ρ (.list i items)
      rcases items with _ | ⟨head, params⟩
      · exact T.rel_throw rfl
      · cases head with
        | symbol name =>
          rw [List.map_cons, Value.rename_list, List.map_cons, Value.rename_symbol]
          refine T.rel_bind (T.rel_ofExcept (paramNames_rename _ params)) fun names => ?_
          -- one expression is the body itself, and any other number becomes a list
          rcases args with _ | ⟨e, _ | ⟨e', args⟩⟩
          · exact T.rel_bind (T.rel_newList [.symbol _]) (T.rel_defineClosure s name names)
          · exact T.rel_bind (T.rel_pure rfl) (T.rel_defineClosure s name names)
          · exact T.rel_bind (T.rel_newList (.symbol _ :: e :: e' :: args))
              (T.rel_defineClosure s name names)
        | _ => exact T.rel_throw (congrArg (fun t => Error.type (.procedureNameNotSymbol t)) unnamed)
    | _ => exact wrong (_ :: args)

theorem rel_runAssign (s : ScopeId) (args : List Value) :
    T.Rel (Value.rename ρ) (SpecialForm.runAssign run s args)
      (SpecialForm.runAssign run' (ρ.scope s) (args.map (Value.rename ρ))) := by
  rcases args with _ | ⟨v, _ | ⟨e, _ | ⟨w, args⟩⟩⟩
  · exact T.rel_throw rfl
  · cases v <;> exact T.rel_throw rfl
  · cases v with
    | symbol name =>
      refine T.rel_ifBound s name ?_ (T.rel_throw rfl)
      refine T.rel_bind (hr e s) fun x => ?_
      exact T.rel_bind (T.rel_set s name x) fun _ => T.rel_pure rfl
    | list i items =>
      have ht := Value.text_rename ρ (.list i items)
      exact T.rel_throw (congrArg (fun t => Error.type (.nameNotSymbol _ t)) ht)
    | _ => exact T.rel_throw rfl
  · have hl : (args.map (Value.rename ρ)).length = args.length := List.length_map _
    cases v <;>
      exact T.rel_throw (congrArg (fun n => Error.arity 2 (n + 3) (some SpecialForm.assign.name)) hl)

theorem rel_runBindings (s : ScopeId) (pairs : List (String × Value)) :
    T.Rel (renameBindings ρ) (SpecialForm.runBindings run s pairs)
      (SpecialForm.runBindings run' (ρ.scope s) (renameBindings ρ pairs)) := by
  induction pairs with
  | nil => exact T.rel_pure rfl
  | cons p pairs ih =>
    refine T.rel_bind (hr p.2 s) fun v => ?_
    exact T.rel_bind ih fun vs => T.rel_pure rfl

theorem rel_runChain (s : ScopeId) (pairs : List (String × Value)) :
    T.Rel ρ.scope (SpecialForm.runChain run s pairs)
      (SpecialForm.runChain run' (ρ.scope s) (renameBindings ρ pairs)) := by
  induction pairs generalizing s with
  | nil => exact T.rel_pure rfl
  | cons p pairs ih =>
    refine T.rel_bind (hr p.2 s) fun v => ?_
    exact T.rel_bind (T.rel_extend s [(p.1, v)]) fun inner => ih inner

theorem rel_runLet (s : ScopeId) (args : List Value) :
    T.Rel (Value.rename ρ) (SpecialForm.runLet run s args)
      (SpecialForm.runLet run' (ρ.scope s) (args.map (Value.rename ρ))) := by
  cases args with
  | nil => exact T.rel_throw rfl
  | cons bindings body =>
    refine T.rel_bind (T.rel_ofExcept (bindingPairs_rename _ bindings)) fun pairs => ?_
    refine T.rel_bind (rel_runBindings hr s pairs) fun vs => ?_
    refine T.rel_bind (T.rel_extend s vs) fun inner => ?_
    exact rel_runAll hr inner body

theorem rel_runLetSeq (s : ScopeId) (args : List Value) :
    T.Rel (Value.rename ρ) (SpecialForm.runLetSeq run s args)
      (SpecialForm.runLetSeq run' (ρ.scope s) (args.map (Value.rename ρ))) := by
  cases args with
  | nil => exact T.rel_throw rfl
  | cons bindings body =>
    refine T.rel_bind (T.rel_extend s []) fun outer => ?_
    refine T.rel_bind (T.rel_ofExcept (bindingPairs_rename _ bindings)) fun pairs => ?_
    refine T.rel_bind (rel_runChain hr outer pairs) fun inner => ?_
    exact rel_runAll hr inner body

theorem rel_runConditional (s : ScopeId) (args : List Value) :
    T.Rel (Value.rename ρ) (SpecialForm.runConditional run s args)
      (SpecialForm.runConditional run' (ρ.scope s) (args.map (Value.rename ρ))) := by
  rcases args with _ | ⟨test, _ | ⟨consequent, alternatives⟩⟩
  · exact T.rel_throw rfl
  · exact T.rel_throw rfl
  · refine T.rel_bind (hr test s) fun v => ?_
    rw [Value.isTruthy_rename]
    split
    · exact hr consequent s
    · cases alternatives with
      | nil => exact T.rel_pure rfl
      | cons alternative rest => exact hr alternative s

theorem rel_evaluate (form : SpecialForm) (s : ScopeId) (args : List Value) :
    T.Rel (Value.rename ρ) (form.evaluate run s args)
      (form.evaluate run' (ρ.scope s) (args.map (Value.rename ρ))) := by
  cases form with
  | quote =>
    refine T.rel_pure ?_
    cases args <;> rfl
  | conditional => exact rel_runConditional hr s args
  | cond => exact rel_runClauses hr s args
  | define => exact rel_runDefine hr s args
  | assign => exact rel_runAssign hr s args
  | lambda => exact T.rel_runLambda s args
  | letIn => exact rel_runLet hr s args
  | letSeq => exact rel_runLetSeq hr s args
  | sequence => exact rel_runAll hr s args

end

section
variable {T : Transfer ρ} {below below' : Task → Action Value}
  (hb : ∀ t : Task, T.Rel (Value.rename ρ) (below t) (below' (t.rename ρ)))
include hb

theorem rel_evalApplication (s : ScopeId) (head : Value) (args : List Value) :
    T.Rel (Value.rename ρ) (Task.evalApplication below s head args)
      (Task.evalApplication below' (ρ.scope s) (head.rename ρ) (args.map (Value.rename ρ))) := by
  refine T.rel_bind (hb (.eval head s)) fun procedure => ?_
  refine T.rel_bind (rel_evalAll hb s args) fun vs => ?_
  rw [Value.isProcedure_rename, Value.text_rename, Value.text_rename]
  split
  · exact T.rel_rethrow rfl (hb (.apply procedure vs))
  · exact T.rel_throw rfl

theorem rel_evalList (s : ScopeId) (head : Value) (args : List Value) :
    T.Rel (Value.rename ρ) (Task.evalList below s head args)
      (Task.evalList below' (ρ.scope s) (head.rename ρ) (args.map (Value.rename ρ))) := by
  have hhead : SpecialForm.ofHead? (head.rename ρ) = SpecialForm.ofHead? head := by
    cases head <;> rfl
  rw [Task.evalList, Task.evalList, hhead]
  cases SpecialForm.ofHead? head with
  | some form =>
    refine T.rel_bind (f := id) (T.rel_ofExcept ?_) fun _ => ?_
    · rw [List.length_map]
      cases form.arity.check (some form.name) args.length <;> rfl
    · exact rel_evaluate (fun e s => hb (.eval e s)) form s args
  | none => exact rel_evalApplication hb s head args

theorem rel_evalStep (s : ScopeId) (e : Value) :
    T.Rel (Value.rename ρ) (Task.evalStep below s e)
      (Task.evalStep below' (ρ.scope s) (e.rename ρ)) := by
  cases e with
  | symbol name =>
    rw [Value.rename_symbol]
    unfold Task.evalStep
    dsimp only
    cases (Value.symbol name).literal? with
    | some text => exact T.rel_pure rfl
    | none => exact T.rel_lookup s name
  | list i items =>
    rw [Value.rename_list]
    cases items with
    | nil => exact T.rel_pure rfl
    | cons head args => exact rel_evalList hb s head args
  | _ => exact T.rel_pure rfl

end

/-- What is related at one depth is related at the next. -/
theorem rel_perform_succ {T : Transfer ρ} {depth depth' : Nat}
    (hb : ∀ t : Task, T.Rel (Value.rename ρ) (t.perform depth) ((t.rename ρ).perform depth'))
    (t : Task) :
    T.Rel (Value.rename ρ) (t.perform (depth + 1)) ((t.rename ρ).perform (depth' + 1)) := by
  cases t with
  | eval e s => exact rel_evalStep hb s e
  | apply procedure args => exact rel_applyStep hb procedure args

end Transfer

end SmallScheme
