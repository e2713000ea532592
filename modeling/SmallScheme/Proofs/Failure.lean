import Mathlib.Data.List.Basic
import SmallScheme.Proofs.Simulation
import SmallScheme.Session

/-! Failures: where the errors of evaluation come from.

A task fails by itself or because a task that it does one level below fails first, and then it passes
that error on. So every error can be followed down to where it was raised, and what is true of the
errors that tasks raise is true of all. -/
namespace SmallScheme

namespace Task

/-- One level of work on a task. -/
def step (below : Task → Action Value) : Task → Action Value
  | eval e s => evalStep below s e
  | apply procedure args => applyStep below procedure args

theorem perform_succ (depth : Nat) (t : Task) : t.perform (depth + 1) = t.step (perform depth) := by
  cases t <;> rfl

/-- What succeeds one level below succeeds there in the same way with the other. -/
def Refines (below below' : Task → Action Value) : Prop :=
  ∀ t st v st', (below t).perform st = (.ok v, st') → (below' t).perform st = (.ok v, st')

/-- Work on the task `t` in the store `st` does the task `u` in the store `su` one level below: it
would have another outcome if that one had. -/
def Calls (below : Task → Action Value) (t : Task) (st : Store) (u : Task) (su : Store) : Prop :=
  ∃ below' : Task → Action Value,
    (∀ v sv, ¬ (v = u ∧ sv = su) → (below' v).perform sv = (below v).perform sv) ∧
      (t.step below').perform st ≠ (t.step below).perform st

/-- Work on the task `t` in the store `st` to a given depth does the task `u` in the store `su`, to the
depth that is then left. -/
inductive Occurs : (depth : Nat) → (t : Task) → (st : Store) → (left : Nat) → (u : Task) →
    (su : Store) → Prop where
  | self {depth : Nat} {t : Task} {st : Store} : Occurs depth t st depth t st
  | call {depth left : Nat} {t t' u : Task} {st st' su : Store} :
      Calls (perform depth) t st t' st' → Occurs depth t' st' left u su →
        Occurs (depth + 1) t st left u su

open Classical in
/-- The level below, except that one task in one store fails with the error `e`. -/
noncomputable def interrupted (below : Task → Action Value) (u : Task) (su : Store) (e : Error) :
    Task → Action Value := fun t => ExceptT.mk fun st =>
  if t = u ∧ st = su then (.error e, st) else (below t).perform st

theorem perform_interrupted (below : Task → Action Value) (u : Task) (su : Store) (e : Error) :
    (interrupted below u su e u).perform su = (.error e, su) := by
  classical
  exact if_pos ⟨rfl, rfl⟩

theorem perform_interrupted_other {below : Task → Action Value} {t u : Task} {st su : Store}
    (h : ¬ (t = u ∧ st = su)) (e : Error) :
    (interrupted below u su e t).perform st = (below t).perform st := by
  classical
  exact if_neg h

/-- Only success below is promised, so a task that fails there may as well fail otherwise. -/
theorem refines_interrupted {below : Task → Action Value} {u : Task} {su su' : Store} {e : Error}
    (h : (below u).perform su = (.error e, su')) (e' : Error) :
    Refines below (interrupted below u su e') := by
  intro t st v st' hok
  rw [perform_interrupted_other _ e']
  · exact hok
  · rintro ⟨rfl, rfl⟩
    rw [h] at hok
    cases hok

end Task

/-- An action that does tasks one level below either fails by itself, with an error that `own` allows,
or it passes on the error of the first task that fails, which is one that `on` allows. -/
structure Relays {α : Type} (own : Error → Prop) (on : Task → Prop)
    (a : (Task → Action Value) → Action α) : Prop where
  success : ∀ {below below' st x st'}, Task.Refines below below' →
    (a below).perform st = (.ok x, st') → (a below').perform st = (.ok x, st')
  failure : ∀ {below st e st'}, (a below).perform st = (.error e, st') →
    own e ∨ ∃ t su, on t ∧ (below t).perform su = (.error e, st') ∧
      ∀ below' e' su', Task.Refines below below' → (below' t).perform su = (.error e', su') →
        (a below').perform st = (.error e', su')

namespace Relays
variable {α β : Type} {own : Error → Prop} {on : Task → Prop}

theorem mono {own' : Error → Prop} {on' : Task → Prop} {a : (Task → Action Value) → Action α}
    (h : Relays own on a) (hown : ∀ e, own e → own' e) (hon : ∀ t, on t → on' t) :
    Relays own' on' a where
  success := h.success
  failure hfail := by
    rcases h.failure hfail with he | ⟨t, su, ht, hcall, hpass⟩
    · exact Or.inl (hown _ he)
    · exact Or.inr ⟨t, su, hon t ht, hcall, hpass⟩

/-- An action that does nothing below can only fail by itself. -/
theorem self {a : Action α} (h : ∀ st e st', a.perform st = (.error e, st') → own e) :
    Relays own on fun _ => a where
  success _ hok := hok
  failure hfail := Or.inl (h _ _ _ hfail)

theorem ofExcept {r : Except Error α} (h : ∀ e, r = .error e → own e) :
    Relays own on fun _ => Action.ofExcept r := by
  refine self fun st e st' hfail => ?_
  rw [Action.perform_ofExcept] at hfail
  exact h e (congrArg Prod.fst hfail)

theorem throw {e : Error} (h : own e) : Relays own on fun _ => (throw e : Action α) := by
  refine self fun st e' st' hfail => ?_
  cases hfail
  exact h

/-- An action that never fails. -/
theorem safe {a : Action α} (h : ∀ st, ∃ x st', a.perform st = (.ok x, st')) :
    Relays own on fun _ => a := by
  refine self fun st e st' hfail => ?_
  obtain ⟨x, st1, hok⟩ := h st
  rw [hok] at hfail
  cases hfail

theorem pure (x : α) : Relays own on fun _ => (pure x : Action α) := safe fun _ => ⟨_, _, rfl⟩

theorem call {t : Task} (h : on t) : Relays own on fun below => below t where
  success hr hok := hr _ _ _ _ hok
  failure hfail := Or.inr ⟨t, _, h, hfail, fun _ _ _ _ h => h⟩

theorem bind {a : (Task → Action Value) → Action α} {k : α → (Task → Action Value) → Action β}
    (ha : Relays own on a) (hk : ∀ x, Relays own on (k x)) :
    Relays own on fun below => a below >>= fun x => k x below where
  success {below below' st y st'} hr hok := by
    rw [Action.perform_bind] at hok ⊢
    rcases hfirst : (a below).perform st with ⟨_ | x, st1⟩
    · rw [hfirst] at hok
      cases hok
    · rw [hfirst] at hok
      rw [ha.success hr hfirst]
      exact (hk x).success hr hok
  failure {below st e st'} hfail := by
    rw [Action.perform_bind] at hfail
    rcases hfirst : (a below).perform st with ⟨e1 | x, st1⟩
    · -- the first part fails, and nothing is done after it
      rw [hfirst] at hfail
      cases hfail
      rcases ha.failure hfirst with hown | ⟨t, su, hon, hcall, hpass⟩
      · exact Or.inl hown
      · refine Or.inr ⟨t, su, hon, hcall, fun below' e' su' hr hfail' => ?_⟩
        rw [Action.perform_bind, hpass below' e' su' hr hfail']
    · -- with the other level below the first part still succeeds, and the rest fails as it did
      rw [hfirst] at hfail
      rcases (hk x).failure hfail with hown | ⟨t, su, hon, hcall, hpass⟩
      · exact Or.inl hown
      · refine Or.inr ⟨t, su, hon, hcall, fun below' e' su' hr hfail' => ?_⟩
        rw [Action.perform_bind, ha.success hr hfirst]
        exact hpass below' e' su' hr hfail'

end Relays

/-- The errors that evaluation raises outside of procedures. An error about a number of arguments says
what they were given to. -/
def Error.Evident : Error → Prop
  | .unbound _ | .type _ | .arity _ _ (some _) => True
  | _ => False

/-- Only errors at run time are marked. -/
theorem Error.Evident.inApplication {e : Error} (h : e.Evident) (head : String) :
    e.inApplication head = e := by
  cases e with
  | runtime fault => cases h
  | _ => rfl

/-- The task evaluates an expression. -/
def Task.IsEval (t : Task) : Prop := ∃ e s, t = .eval e s

/-- The task applies a procedure. -/
def Task.IsApply (t : Task) : Prop := ∃ procedure args, t = .apply procedure args

namespace SpecialForm

/-- Forms do nothing below but evaluate expressions, and the errors that they raise are evident. -/
abbrev Evaluates {α : Type} (a : (Value → ScopeId → Action Value) → Action α) : Prop :=
  Relays Error.Evident Task.IsEval fun below => a fun e s => below (.eval e s)

theorem evaluates_run (e : Value) (s : ScopeId) : Evaluates fun run => run e s :=
  Relays.call ⟨e, s, rfl⟩

theorem paramNames_evident {form : SpecialForm} {vs : List Value} {e : Error}
    (h : paramNames form vs = .error e) : e.Evident := by
  induction vs with
  | nil => cases h
  | cons v vs ih =>
    cases v with
    | symbol name =>
      rw [paramNames] at h
      cases hrest : paramNames form vs with
      | error e' =>
        rw [hrest] at h
        cases h
        exact ih hrest
      | ok names =>
        rw [hrest] at h
        cases h
    | _ =>
      cases h
      trivial

theorem bindingPairs_evident {form : SpecialForm} {bindings : Value} {e : Error}
    (h : bindingPairs form bindings = .error e) : e.Evident := by
  unfold bindingPairs at h
  dsimp only at h
  split at h
  · cases h
  · cases h
    trivial

theorem evaluates_runAll (s : ScopeId) (es : List Value) : Evaluates fun run => runAll run s es := by
  induction es with
  | nil => exact Relays.pure _
  | cons e es ih =>
    cases es with
    | nil => exact evaluates_run e s
    | cons e' es => exact Relays.bind (evaluates_run e s) fun _ => ih

theorem evaluates_runClauses (s : ScopeId) (clauses : List Value) :
    Evaluates fun run => runClauses run s clauses := by
  induction clauses with
  | nil => exact Relays.pure _
  | cons c cs ih =>
    cases c with
    | list i items =>
      rcases items with _ | ⟨test, _ | ⟨e, body⟩⟩
      · exact Relays.throw trivial
      · exact Relays.throw trivial
      · by_cases ht : test = .symbol "else"
        · subst ht
          exact evaluates_runAll s (e :: body)
        · simp only [Evaluates, Simulation.runClauses_cons ht]
          refine Relays.bind (evaluates_run test s) fun v => ?_
          split
          · exact evaluates_runAll s (e :: body)
          · exact ih
    | _ => exact Relays.throw trivial

/-- The end of a definition of a procedure does not fail. -/
theorem evaluates_defineClosure (s : ScopeId) (name : String) (params : List String) (body : Value) :
    Evaluates fun _ => (do
      Action.define s name (← Action.newClosure params body s)
      return .unspecified : Action Value) := by
  refine Relays.bind (Relays.safe fun _ => ⟨_, _, rfl⟩) fun v => ?_
  exact Relays.bind (Relays.safe fun _ => ⟨_, _, rfl⟩) fun _ => Relays.pure _

theorem evaluates_runDefine (s : ScopeId) (args : List Value) :
    Evaluates fun run => runDefine run s args := by
  cases args with
  | nil => exact Relays.throw trivial
  | cons v args =>
    cases v with
    | symbol name =>
      rcases args with _ | ⟨e, _ | ⟨e', args⟩⟩
      · exact Relays.throw trivial
      · refine Relays.bind (evaluates_run e s) fun x => ?_
        exact Relays.bind (Relays.safe fun _ => ⟨_, _, rfl⟩) fun _ => Relays.pure _
      · exact Relays.throw trivial
    | list i items =>
      rcases items with _ | ⟨head, params⟩
      · exact Relays.throw trivial
      · cases head with
        | symbol name =>
          refine Relays.bind (Relays.ofExcept fun e => paramNames_evident) fun names => ?_
          rcases args with _ | ⟨e, _ | ⟨e', args⟩⟩
          · exact Relays.bind (Relays.safe fun _ => ⟨_, _, rfl⟩)
              (evaluates_defineClosure s name names)
          · exact Relays.bind (Relays.pure e) (evaluates_defineClosure s name names)
          · exact Relays.bind (Relays.safe fun _ => ⟨_, _, rfl⟩)
              (evaluates_defineClosure s name names)
        | _ => exact Relays.throw trivial
    | _ => exact Relays.throw trivial

theorem evaluates_runAssign (s : ScopeId) (args : List Value) :
    Evaluates fun run => runAssign run s args := by
  rcases args with _ | ⟨v, _ | ⟨e, _ | ⟨w, args⟩⟩⟩
  · exact Relays.throw trivial
  · cases v <;> exact Relays.throw trivial
  · cases v with
    | symbol name =>
      refine Relays.bind (a := fun _ => get) (Relays.safe fun _ => ⟨_, _, rfl⟩) fun st => ?_
      split
      · refine Relays.bind (evaluates_run e s) fun x => ?_
        refine Relays.bind (Relays.self ?_) fun _ => Relays.pure _
        -- a name that is no longer bound is an error as well
        intro st1 err st2 hfail
        rw [Action.perform_set] at hfail
        split at hfail
        · cases hfail
        · cases hfail
          trivial
      · exact Relays.throw trivial
    | _ => exact Relays.throw trivial
  · cases v <;> exact Relays.throw trivial

theorem evaluates_runLambda (s : ScopeId) (args : List Value) :
    Evaluates fun _ => runLambda s args := by
  rcases args with _ | ⟨v, _ | ⟨body, _ | ⟨w, args⟩⟩⟩
  · exact Relays.throw trivial
  · cases v <;> exact Relays.throw trivial
  · cases v with
    | list i params =>
      refine Relays.bind (Relays.ofExcept fun e => paramNames_evident) fun names => ?_
      exact Relays.safe fun _ => ⟨_, _, rfl⟩
    | _ => exact Relays.throw trivial
  · cases v <;> exact Relays.throw trivial

theorem evaluates_runBindings (s : ScopeId) (pairs : List (String × Value)) :
    Evaluates fun run => runBindings run s pairs := by
  induction pairs with
  | nil => exact Relays.pure _
  | cons p pairs ih =>
    refine Relays.bind (evaluates_run p.2 s) fun v => ?_
    exact Relays.bind ih fun vs => Relays.pure _

theorem evaluates_runChain (s : ScopeId) (pairs : List (String × Value)) :
    Evaluates fun run => runChain run s pairs := by
  induction pairs generalizing s with
  | nil => exact Relays.pure _
  | cons p pairs ih =>
    refine Relays.bind (evaluates_run p.2 s) fun v => ?_
    exact Relays.bind (Relays.safe fun _ => ⟨_, _, rfl⟩) fun inner => ih inner

theorem evaluates_runLet (s : ScopeId) (args : List Value) :
    Evaluates fun run => runLet run s args := by
  cases args with
  | nil => exact Relays.throw trivial
  | cons bindings body =>
    refine Relays.bind (Relays.ofExcept fun e => bindingPairs_evident) fun pairs => ?_
    refine Relays.bind (evaluates_runBindings s pairs) fun vs => ?_
    refine Relays.bind (Relays.safe fun _ => ⟨_, _, rfl⟩) fun inner => ?_
    exact evaluates_runAll inner body

theorem evaluates_runLetSeq (s : ScopeId) (args : List Value) :
    Evaluates fun run => runLetSeq run s args := by
  cases args with
  | nil => exact Relays.throw trivial
  | cons bindings body =>
    refine Relays.bind (Relays.safe fun _ => ⟨_, _, rfl⟩) fun outer => ?_
    refine Relays.bind (Relays.ofExcept fun e => bindingPairs_evident) fun pairs => ?_
    refine Relays.bind (evaluates_runChain outer pairs) fun inner => ?_
    exact evaluates_runAll inner body

theorem evaluates_runConditional (s : ScopeId) (args : List Value) :
    Evaluates fun run => runConditional run s args := by
  rcases args with _ | ⟨test, _ | ⟨consequent, alternatives⟩⟩
  · exact Relays.throw trivial
  · exact Relays.throw trivial
  · refine Relays.bind (evaluates_run test s) fun v => ?_
    split
    · exact evaluates_run consequent s
    · cases alternatives with
      | nil => exact Relays.pure _
      | cons alternative rest => exact evaluates_run alternative s

theorem evaluates_evaluate (form : SpecialForm) (s : ScopeId) (args : List Value) :
    Evaluates fun run => form.evaluate run s args := by
  cases form with
  | quote => exact Relays.pure _
  | conditional => exact evaluates_runConditional s args
  | cond => exact evaluates_runClauses s args
  | define => exact evaluates_runDefine s args
  | assign => exact evaluates_runAssign s args
  | lambda => exact evaluates_runLambda s args
  | letIn => exact evaluates_runLet s args
  | letSeq => exact evaluates_runLetSeq s args
  | sequence => exact evaluates_runAll s args

end SpecialForm

/-- The errors that built-in procedures raise on as many arguments as they take. -/
def Error.IsRuntime : Error → Prop
  | .runtime _ => True
  | _ => False

namespace Primitive

/-- What can only fail at run time. -/
def Faults {α : Type} (r : Except Error α) : Prop := ∀ e, r = .error e → e.IsRuntime

theorem faults_ok {α : Type} (x : α) : Faults (.ok x) := nofun

theorem faults_bind {α β : Type} {r : Except Error α} {f : α → Except Error β} (hr : Faults r)
    (hf : ∀ x, Faults (f x)) : Faults (r >>= f) := by
  intro e he
  cases r with
  | error e' =>
    cases he
    exact hr e rfl
  | ok x => exact hf x e he

theorem faults_number (op : String) (v : Value) : Faults (number op v) := by
  intro e he
  cases v with
  | number x => cases he
  | _ =>
    cases he
    trivial

theorem faults_numbers (op : String) (vs : List Value) : Faults (numbers op vs) := by
  induction vs with
  | nil => exact faults_ok []
  | cons v vs ih =>
    exact faults_bind (faults_number op v) fun x => faults_bind ih fun xs => faults_ok _

theorem faults_items (op : String) (v : Value) : Faults (items op v) := by
  intro e he
  unfold items at he
  split at he
  · cases he
  · cases he
    trivial

theorem faults_foldNumbers (op : String) (f : Binary64 → Binary64 → Binary64) (v : Value)
    (vs : List Value) : Faults (foldNumbers op f v vs) :=
  faults_bind (faults_number op v) fun _ => faults_bind (faults_numbers op vs) fun _ => faults_ok _

theorem faults_foldNumbersFrom (op : String) (f : Binary64 → Binary64 → Binary64) (x : Binary64)
    (vs : List Value) : Faults (foldNumbersFrom op f x vs) :=
  faults_bind (faults_numbers op vs) fun _ => faults_ok _

/-- A primitive that gets as many arguments as it is declared to take does not fail over their
number. -/
theorem faults_reply {p : Primitive} {args : List Value} (h : p.arity.accepts args.length = true) :
    Faults (p.reply args) := by
  cases p with
  -- any number of arguments
  | hypot | add | mul => exact faults_foldNumbersFrom _ _ _ args
  | or | and | list | append => exact faults_ok _
  | error =>
    intro e he
    cases args <;> cases he <;> trivial
  -- at least one argument
  | max | min =>
    cases args with
    | nil => cases h
    | cons v args => exact faults_foldNumbers _ _ v args
  | sub =>
    rcases args with _ | ⟨v, _ | ⟨w, args⟩⟩
    · cases h
    · exact faults_bind (faults_number _ v) fun _ => faults_ok _
    · exact faults_foldNumbers _ _ v (w :: args)
  | div =>
    rcases args with _ | ⟨v, _ | ⟨w, args⟩⟩
    · cases h
    · exact faults_foldNumbersFrom _ _ _ [v]
    · exact faults_foldNumbers _ _ v (w :: args)
  -- two arguments
  | pow | atan2 | imul | remainder | modulo =>
    obtain ⟨v, w, rfl⟩ := List.length_eq_two.mp (of_decide_eq_true h)
    exact faults_foldNumbers _ _ v [w]
  | compare c =>
    obtain ⟨v, w, rfl⟩ := List.length_eq_two.mp (of_decide_eq_true h)
    exact faults_bind (faults_number _ v) fun _ => faults_bind (faults_number _ w) fun _ => faults_ok _
  | numEqual | equal | eq | cons =>
    obtain ⟨v, w, rfl⟩ := List.length_eq_two.mp (of_decide_eq_true h)
    exact faults_ok _
  -- one argument
  | math f =>
    obtain ⟨v, rfl⟩ := List.length_eq_one_iff.mp (of_decide_eq_true h)
    exact faults_bind (faults_number _ v) fun _ => faults_ok _
  | not | isNull =>
    obtain ⟨v, rfl⟩ := List.length_eq_one_iff.mp (of_decide_eq_true h)
    exact faults_ok _
  | isList | isPair =>
    obtain ⟨v, rfl⟩ := List.length_eq_one_iff.mp (of_decide_eq_true h)
    cases v <;> exact faults_ok _
  | length =>
    obtain ⟨v, rfl⟩ := List.length_eq_one_iff.mp (of_decide_eq_true h)
    cases v with
    | string s => exact faults_ok _
    | _ => exact faults_bind (faults_items _ _) fun _ => faults_ok _
  | car | reverse =>
    obtain ⟨v, rfl⟩ := List.length_eq_one_iff.mp (of_decide_eq_true h)
    exact faults_bind (faults_items _ v) fun _ => faults_ok _
  | cdr =>
    obtain ⟨v, rfl⟩ := List.length_eq_one_iff.mp (of_decide_eq_true h)
    refine faults_bind (faults_items _ v) fun vs => ?_
    cases vs <;> exact faults_ok _

end Primitive

namespace Task

/-- Built-in procedures do nothing below but apply procedures, and the errors that they raise are those
of run time. -/
abbrev Applies {α : Type} (a : (Task → Action Value) → Action α) : Prop :=
  Relays Error.IsRuntime IsApply a

theorem applies_call (procedure : Value) (args : List Value) :
    Applies fun below => below (.apply procedure args) :=
  Relays.call ⟨procedure, args, rfl⟩

theorem applies_images (f : Value) (vs : List Value) : Applies fun below => images below f vs := by
  induction vs with
  | nil => exact Relays.pure _
  | cons v vs ih =>
    refine Relays.bind (applies_call f [v]) fun w => ?_
    exact Relays.bind ih fun ws => Relays.pure _

theorem applies_keep (f : Value) (vs : List Value) : Applies fun below => keep below f vs := by
  induction vs with
  | nil => exact Relays.pure _
  | cons v vs ih =>
    refine Relays.bind (applies_call f [v]) fun w => ?_
    exact Relays.bind ih fun ws => Relays.pure _

theorem applies_accumulate (f acc : Value) (vs : List Value) :
    Applies fun below => accumulate below f acc vs := by
  induction vs generalizing acc with
  | nil => exact Relays.pure _
  | cons v vs ih => exact Relays.bind (applies_call f [acc, v]) fun w => ih w

/-- A combinator goes on with the procedure and the items that it was given. -/
theorem applies_operands (op : String) (f v : Value)
    {k : Value → List Value → (Task → Action Value) → Action Value}
    (hk : ∀ g vs, Applies (k g vs)) :
    Applies fun below => (do
      let g ← Action.ofExcept (procedureArg op f)
      let items ← Action.ofExcept (Primitive.items op v)
      k g items below) := by
  refine Relays.bind (Relays.ofExcept ?_) fun g => ?_
  · intro e he
    unfold procedureArg at he
    split at he
    · cases he
    · cases he
      trivial
  · exact Relays.bind (Relays.ofExcept (Primitive.faults_items op v)) fun vs => hk g vs

theorem applies_combine {c : Combinator} {args : List Value}
    (h : c.arity.accepts args.length = true) : Applies fun below => combine below c args := by
  cases c with
  | map =>
    obtain ⟨f, v, rfl⟩ := List.length_eq_two.mp (of_decide_eq_true h)
    refine applies_operands "map" f v fun g vs => ?_
    exact Relays.bind (applies_images g vs) fun ws => Relays.safe fun _ => ⟨_, _, rfl⟩
  | filter =>
    obtain ⟨f, v, rfl⟩ := List.length_eq_two.mp (of_decide_eq_true h)
    refine applies_operands "filter" f v fun g vs => ?_
    exact Relays.bind (applies_keep g vs) fun ws => Relays.safe fun _ => ⟨_, _, rfl⟩
  | fold | reduce =>
    obtain ⟨f, init, v, rfl⟩ := List.length_eq_three.mp (of_decide_eq_true h)
    exact applies_operands "fold" f v fun g vs => applies_accumulate g init vs
  | apply =>
    obtain ⟨f, v, rfl⟩ := List.length_eq_two.mp (of_decide_eq_true h)
    exact applies_operands "apply" f v fun g vs => applies_call g vs

theorem applies_invoke {op : Builtin} {args : List Value}
    (h : op.arity.accepts args.length = true) : Applies fun below => invoke below op args := by
  cases op with
  | primitive p =>
    refine Relays.bind (Relays.ofExcept (Primitive.faults_reply h)) fun r => ?_
    cases r with
    | value v => exact Relays.pure _
    | fresh items => exact Relays.safe fun _ => ⟨_, _, rfl⟩
  | combinator c => exact applies_combine h
  | random =>
    cases List.length_eq_zero_iff.mp (of_decide_eq_true h)
    exact Relays.bind (Relays.safe fun _ => ⟨_, _, rfl⟩) fun x => Relays.pure _
  | display =>
    obtain ⟨v, rfl⟩ := List.length_eq_one_iff.mp (of_decide_eq_true h)
    exact Relays.bind (Relays.safe fun _ => ⟨_, _, rfl⟩) fun _ => Relays.pure _

theorem relays_evalAll (s : ScopeId) (es : List Value) :
    Relays Error.Evident IsEval fun below => evalAll below s es := by
  induction es with
  | nil => exact Relays.pure _
  | cons e es ih =>
    refine Relays.bind (Relays.call ⟨e, s, rfl⟩) fun v => ?_
    exact Relays.bind ih fun vs => Relays.pure _

/-- The task applies a built-in procedure. -/
def AppliesBuiltin (t : Task) : Prop := ∃ op args, t = .apply (.builtin op) args

/-- The errors that a task raises itself. -/
def Raises (t : Task) (e : Error) : Prop := e.Evident ∨ e.IsRuntime ∧ t.AppliesBuiltin

end Task

namespace Task

/-- Where the error of a task comes from: the task raises it, or a task one level below has failed with
it, or the application of a procedure has failed below and the error was marked with the head. -/
inductive Origin (below : Task → Action Value) (t : Task) (st : Store) (e : Error) (st' : Store) :
    Prop where
  | raised : t.Raises e → Origin below t st e st'
  | passed {u : Task} {su : Store} : Calls below t st u su → u.IsEval ∨ t.AppliesBuiltin →
      (below u).perform su = (.error e, st') → Origin below t st e st'
  | marked {i : Nat} {s : ScopeId} {head procedure : Value} {args vs : List Value} {st1 su : Store}
      {cause : Error} : t = .eval (.list i (head :: args)) s → SpecialForm.ofHead? head = none →
      (below (.eval head s)).perform st = (.ok procedure, st1) →
      Calls below t st (.apply procedure vs) su →
      (below (.apply procedure vs)).perform su = (.error cause, st') →
      e = cause.inApplication head.text → Origin below t st e st'

section
variable {below : Task → Action Value} {t u : Task} {st st1 st2 su st' : Store} {e : Error}

/-- A task whose failure is passed on is one that is called. The error may be marked on its way, but
not so that all errors become one. -/
theorem calls_of_pass (mark : Error → Error) (hdeep : mark .tooDeep = .tooDeep)
    (hname : mark (.unbound "") = .unbound "")
    (hcall : (below u).perform su = (.error e, st'))
    (hpass : ∀ below' e' su', Refines below below' → (below' u).perform su = (.error e', su') →
      (t.step below').perform st = (.error (mark e'), su')) : Calls below t st u su := by
  have hfail : (t.step below).perform st = (.error (mark e), st') :=
    hpass below e st' (fun _ _ _ _ h => h) hcall
  -- some other error would have been seen
  obtain ⟨e', he'⟩ : ∃ e', mark e' ≠ mark e := by
    by_cases h : mark e = .tooDeep
    · exact ⟨.unbound "", by rw [hname, h]; nofun⟩
    · exact ⟨.tooDeep, by rw [hdeep]; exact Ne.symm h⟩
  refine ⟨interrupted below u su e', fun v sv hv => perform_interrupted_other hv e', ?_⟩
  rw [hpass _ e' su (refines_interrupted hcall e') (perform_interrupted below u su e'), hfail]
  intro heq
  exact he' (Except.error.inj (congrArg Prod.fst heq))

/-- What only relays errors fails by itself or passes on the failure of a task that it calls. -/
theorem Origin.of_relays (h : Relays t.Raises (fun u => u.IsEval ∨ t.AppliesBuiltin) t.step)
    (hfail : (t.step below).perform st = (.error e, st')) : Origin below t st e st' := by
  rcases h.failure hfail with hraise | ⟨u, su, hu, hcall, hpass⟩
  · exact .raised hraise
  · have hcalls : Calls below t st u su := calls_of_pass id rfl rfl hcall hpass
    exact .passed hcalls hu hcall

/-! The head of an application is evaluated first, then the arguments; then the procedure is
applied. -/

variable {s : ScopeId} {head procedure : Value} {args vs : List Value}

theorem evalApplication_of_head (h : (below (.eval head s)).perform st = (.error e, st')) :
    (evalApplication below s head args).perform st = (.error e, st') := by
  rw [evalApplication, Action.perform_bind, h]

theorem evalApplication_of_args (hhead : (below (.eval head s)).perform st = (.ok procedure, st1))
    (h : (evalAll below s args).perform st1 = (.error e, st')) :
    (evalApplication below s head args).perform st = (.error e, st') := by
  rw [evalApplication, Action.perform_bind, hhead]
  dsimp only
  rw [Action.perform_bind, h]

theorem evalApplication_of_apply (hhead : (below (.eval head s)).perform st = (.ok procedure, st1))
    (hargs : (evalAll below s args).perform st1 = (.ok vs, st2)) :
    (evalApplication below s head args).perform st =
      if procedure.isProcedure then
        match (below (.apply procedure vs)).perform st2 with
        | (.ok v, st3) => (.ok v, st3)
        | (.error cause, st3) => (.error (cause.inApplication head.text), st3)
      else (.error (.type (.headNotProcedure head.text procedure.text)), st2) := by
  rw [evalApplication, Action.perform_bind, hhead]
  dsimp only
  rw [Action.perform_bind, hargs]
  dsimp only
  split
  · rw [Action.perform_tryCatch]
    rcases (below (.apply procedure vs)).perform st2 with ⟨cause | v, st3⟩ <;> rfl
  · rfl

theorem step_application {i : Nat} (hform : SpecialForm.ofHead? head = none) :
    (eval (.list i (head :: args)) s).step below = evalApplication below s head args := by
  change evalList below s head args = _
  rw [evalList, hform]

theorem step_form {i : Nat} {form : SpecialForm} (hform : SpecialForm.ofHead? head = some form) :
    (eval (.list i (head :: args)) s).step below = (do
      Action.ofExcept (form.arity.check (some form.name) args.length)
      form.evaluate (fun e s => below (.eval e s)) s args) := by
  change evalList below s head args = _
  rw [evalList, hform]

/-- The error of an application comes from the head, from the arguments or from the procedure, and
only in the last case it is marked. -/
theorem origin_application {i : Nat} (hform : SpecialForm.ofHead? head = none)
    (hfail : (evalApplication below s head args).perform st = (.error e, st')) :
    Origin below (.eval (.list i (head :: args)) s) st e st' := by
  rcases hhead : (below (.eval head s)).perform st with ⟨e1 | procedure, st1⟩
  · rw [evalApplication_of_head hhead] at hfail
    cases hfail
    refine .passed (calls_of_pass id rfl rfl hhead ?_) (Or.inl ⟨head, s, rfl⟩) hhead
    intro below' e' su' _ hcall
    rw [step_application hform]
    exact evalApplication_of_head hcall
  rcases hargs : (evalAll below s args).perform st1 with ⟨e1 | vs, st2⟩
  · rw [evalApplication_of_args hhead hargs] at hfail
    cases hfail
    rcases (relays_evalAll s args).failure hargs with hown | ⟨u, su, hu, hcall, hpass⟩
    · exact .raised (Or.inl hown)
    · refine .passed (calls_of_pass id rfl rfl hcall ?_) (Or.inl hu) hcall
      intro below' e' su' hr hcall'
      rw [step_application hform]
      exact evalApplication_of_args (hr _ _ _ _ hhead) (hpass below' e' su' hr hcall')
  rw [evalApplication_of_apply hhead hargs] at hfail
  by_cases hproc : procedure.isProcedure = true
  · rw [if_pos hproc] at hfail
    rcases happ : (below (.apply procedure vs)).perform st2 with ⟨cause | v, st3⟩
    · rw [happ] at hfail
      cases hfail
      refine .marked rfl hform hhead (calls_of_pass (Error.inApplication head.text) rfl rfl
        happ ?_) happ rfl
      -- whatever the procedure fails with shows, and is marked if it is an error at run time
      intro below' e' su' hr hcall
      rw [step_application hform, evalApplication_of_apply (hr _ _ _ _ hhead)
        ((relays_evalAll s args).success hr hargs), if_pos hproc, hcall]
    · rw [happ] at hfail
      cases hfail
  · rw [if_neg hproc] at hfail
    cases hfail
    exact .raised (Or.inl trivial)

/-- The check of a number of arguments fails with an error that says what they were given to. -/
theorem check_evident {a : Arity} {subject : String} {count : Nat} (e : Error)
    (h : a.check (some subject) count = .error e) : e.Evident := by
  unfold Arity.check at h
  split at h
  · cases h
  · cases h
    trivial

/-- Whatever is not an application only relays errors. -/
theorem relays_eval {e : Value}
    (h : ∀ i head args, e = .list i (head :: args) → SpecialForm.ofHead? head ≠ none) :
    Relays Error.Evident IsEval (eval e s).step := by
  cases e with
  | symbol name =>
    cases hliteral : (Value.symbol name).literal? with
    | some text =>
      simp only [step, evalStep, hliteral]
      exact Relays.pure _
    | none =>
      simp only [step, evalStep, hliteral]
      refine Relays.self fun st e st' hfail => ?_
      rw [Action.perform_lookup] at hfail
      split at hfail
      · cases hfail
      · cases hfail
        trivial
  | list i items =>
    cases items with
    | nil => exact Relays.pure _
    | cons head args =>
      obtain ⟨form, hform⟩ := Option.ne_none_iff_exists'.mp (h i head args rfl)
      simp only [step_form hform]
      refine Relays.bind (Relays.ofExcept check_evident) fun _ => ?_
      exact SpecialForm.evaluates_evaluate form s args
  | _ => exact Relays.pure _

theorem step_builtin (below : Task → Action Value) (op : Builtin) (args : List Value) :
    (apply (.builtin op) args).step below = (do
      Action.ofExcept (op.arity.check (some op.name) args.length)
      invoke below op args) := rfl

theorem relays_apply (procedure : Value) (args : List Value) :
    Relays (apply procedure args).Raises
      (fun u => u.IsEval ∨ (apply procedure args).AppliesBuiltin) (apply procedure args).step := by
  cases procedure with
  | builtin op =>
    have happlies : (apply (.builtin op) args).AppliesBuiltin := ⟨op, args, rfl⟩
    -- once the number of arguments has been checked, no built-in procedure fails over it again
    by_cases hcount : op.arity.accepts args.length = true
    · have hcheck : ∀ below, (apply (.builtin op) args).step below = invoke below op args := by
        intro below
        rw [step_builtin, Arity.check, if_pos hcount]
        rfl
      simp only [hcheck]
      exact (applies_invoke hcount).mono (fun e he => Or.inr ⟨he, happlies⟩) fun _ _ => Or.inr happlies
    · have hcheck : ∀ below, (apply (.builtin op) args).step below =
          throw (.arity (op.arity.bound args.length) args.length (some op.name)) := by
        intro below
        rw [step_builtin, Arity.check, if_neg hcount]
        rfl
      simp only [hcheck]
      exact Relays.throw (Or.inl trivial)
  | closure i params body s =>
    change Relays _ _ fun below => if params.length = args.length then _ else _
    split
    · refine Relays.bind (Relays.safe fun _ => ⟨_, _, rfl⟩) fun inner => ?_
      exact Relays.call (Or.inl ⟨body, inner, rfl⟩)
    · exact Relays.throw (Or.inl trivial)
  | _ => exact Relays.throw (Or.inl trivial)

/-- Every failure has an origin. -/
theorem origin_of_failure (t : Task) (hfail : (t.step below).perform st = (.error e, st')) :
    Origin below t st e st' := by
  cases t with
  | apply procedure args => exact .of_relays (relays_apply procedure args) hfail
  | eval expr s =>
    by_cases h : ∃ i head args, expr = .list i (head :: args) ∧ SpecialForm.ofHead? head = none
    · obtain ⟨i, head, args, rfl, hform⟩ := h
      rw [step_application hform] at hfail
      exact origin_application hform hfail
    · have hrelays : Relays Error.Evident IsEval (eval expr s).step :=
        relays_eval fun i head args he hform => h ⟨i, head, args, he, hform⟩
      exact .of_relays (hrelays.mono (fun _ => Or.inl) fun _ => Or.inl) hfail

end

/-- The error comes from an application that is evaluated in the course of the task `t`: `name` is the
text of its head, which is not that of a special form and evaluates to a built-in procedure. -/
def Blames (depth : Nat) (t : Task) (st : Store) (e : Error) (name : String) : Prop :=
  ∃ left su i head args s op, Occurs depth t st (left + 1) (.eval (.list i (head :: args)) s) su ∧
    ((perform (left + 1) (.eval (.list i (head :: args)) s)).perform su).1 = .error e ∧
    ((perform left (.eval head s)).perform su).1 = .ok (.builtin op) ∧
    SpecialForm.ofHead? head = none ∧ head.text = name

/-- The errors that a task can fail with. -/
inductive Accounts (depth : Nat) (t : Task) (st : Store) : Error → Prop where
  | evident {e : Error} : e.Evident → Accounts depth t st e
  | tooDeep : Accounts depth t st .tooDeep
  | bare {fault : RuntimeFault} : t.AppliesBuiltin → Accounts depth t st (.runtime fault)
  | marked {fault : RuntimeFault} {name : String} :
      Blames depth t st (.application name (.runtime fault)) name →
        Accounts depth t st (.application name (.runtime fault))

section
variable {depth : Nat} {t u : Task} {st su : Store} {e : Error}

theorem Blames.call {name : String} (hcall : Calls (perform depth) t st u su)
    (h : Blames depth u su e name) : Blames (depth + 1) t st e name := by
  obtain ⟨left, su', i, head, args, s, op, hoccurs, hblame⟩ := h
  exact ⟨left, su', i, head, args, s, op, .call hcall hoccurs, hblame⟩

/-- What a task below fails with may be passed on, except that an error at run time must not come out
of the application of anything but a built-in procedure. -/
theorem Accounts.call (hcall : Calls (perform depth) t st u su)
    (hbare : u.AppliesBuiltin → t.AppliesBuiltin) (h : Accounts depth u su e) :
    Accounts (depth + 1) t st e := by
  cases h with
  | evident he => exact .evident he
  | tooDeep => exact .tooDeep
  | bare hb => exact .bare (hbare hb)
  | marked hb => exact .marked (hb.call hcall)

theorem Accounts.appliesBuiltin {fault : RuntimeFault} (h : Accounts depth t st (.runtime fault)) :
    t.AppliesBuiltin := by
  cases h with
  | evident he => cases he
  | bare hb => exact hb

theorem accounts_of_origin {st' : Store}
    (hbelow : ∀ u su e st', (perform depth u).perform su = (.error e, st') → Accounts depth u su e)
    (hfail : (perform (depth + 1) t).perform st = (.error e, st'))
    (h : Origin (perform depth) t st e st') : Accounts (depth + 1) t st e := by
  cases h with
  | raised hraise =>
    rcases hraise with he | ⟨he, happlies⟩
    · exact .evident he
    · cases e with
      | runtime fault => exact .bare happlies
      | _ => cases he
  | passed hcalls hon hcall =>
    -- a bare error comes from the application of a procedure, and only a procedure passes it on
    refine (hbelow _ _ _ _ hcall).call hcalls fun hb => ?_
    rcases hon with ⟨expr, s, rfl⟩ | happlies
    · obtain ⟨op, args, hop⟩ := hb
      cases hop
    · exact happlies
  | @marked i s head procedure args vs st1 su cause ht hform hhead hcalls hcall he =>
    subst ht he
    cases hbelow _ _ _ _ hcall with
    | evident hev =>
      rw [hev.inApplication]
      exact .evident hev
    | tooDeep => exact .tooDeep
    | bare hb =>
      -- here the error gets its mark, and the procedure is the value of the head
      obtain ⟨op, args', hop⟩ := hb
      cases hop
      exact .marked ⟨depth, st, i, head, args, s, op, .self, congrArg Prod.fst hfail,
        congrArg Prod.fst hhead, hform, rfl⟩
    | marked hb => exact .marked (hb.call hcalls)

/-- All errors are accounted for, at every depth. -/
theorem accounts_of_failure (depth : Nat) (t : Task) (st : Store) (e : Error) (st' : Store)
    (hfail : (perform depth t).perform st = (.error e, st')) : Accounts depth t st e := by
  induction depth generalizing t st e st' with
  | zero =>
    cases hfail
    exact .tooDeep
  | succ depth ih =>
    have horigin : Origin (perform depth) t st e st' := by
      rw [perform_succ] at hfail
      exact origin_of_failure t hfail
    exact accounts_of_origin ih hfail horigin

end

end Task

/-- What holds of all errors: none is about the text of a program; one that is marked with a procedure
marks a failure at run time, once, and blames the procedure rightly; one about a number of arguments
says what they were given to. -/
structure Error.Disciplined (blames : String → Prop) (e : Error) : Prop where
  not_syntactic : ∀ fault, e ≠ .syntactic fault
  marked_once : ∀ name cause, e = .application name cause →
    (∃ fault, cause = .runtime fault) ∧ e.rootCause = cause ∧ blames name
  subject_known : ∀ expected got subject?, e = .arity expected got subject? → subject?.isSome = true

theorem Task.Accounts.disciplined {depth : Nat} {t : Task} {st : Store} {e : Error}
    (h : Accounts depth t st e) : e.Disciplined (Blames depth t st e) := by
  cases h with
  | evident he =>
    cases e with
    | unbound name => exact ⟨nofun, nofun, nofun⟩
    | type fault => exact ⟨nofun, nofun, nofun⟩
    | arity expected got subject? =>
      cases subject? with
      | none => cases he
      | some subject =>
        refine ⟨nofun, nofun, fun _ _ _ heq => ?_⟩
        cases heq
        rfl
    | _ => cases he
  | tooDeep => exact ⟨nofun, nofun, nofun⟩
  | bare _ => exact ⟨nofun, nofun, nofun⟩
  | @marked fault name hb =>
    refine ⟨nofun, fun _ _ heq => ?_, nofun⟩
    cases heq
    exact ⟨⟨fault, rfl⟩, rfl, hb⟩

/-- Evaluation fails with disciplined errors, whatever the expression, the scope and the store, and an
error at run time always comes with the application that it arose in. So does the application of
procedures, except that a built-in procedure may fail with a bare error at run time. -/
theorem errors_disciplined (depth : Nat) (st : Store) :
    (∀ e s err st', (eval depth e s).perform st = (.error err, st') →
      err.Disciplined (Task.Blames depth (.eval e s) st err) ∧ ∀ fault, err ≠ .runtime fault) ∧
    (∀ p args err st', (apply depth p args).perform st = (.error err, st') →
      err.Disciplined (Task.Blames depth (.apply p args) st err) ∧
        ∀ fault, err = .runtime fault → ∃ op, p = .builtin op) ∧
    ∃ p args fault st', (apply (depth + 1) p args).perform st = (.error (.runtime fault), st') := by
  refine ⟨fun e s err st' hfail => ?_, fun p args err st' hfail => ?_, ?_⟩
  · have h := Task.accounts_of_failure depth (.eval e s) st err st' hfail
    refine ⟨h.disciplined, fun fault hbare => ?_⟩
    subst hbare
    obtain ⟨op, args, heq⟩ := h.appliesBuiltin
    cases heq
  · have h := Task.accounts_of_failure depth (.apply p args) st err st' hfail
    refine ⟨h.disciplined, fun fault hbare => ?_⟩
    subst hbare
    obtain ⟨op, args', heq⟩ := h.appliesBuiltin
    cases heq
    exact ⟨op, rfl⟩
  · -- a built-in procedure that is applied directly is not in an application
    exact ⟨.builtin (.primitive .car), [.bool true], .notList "car" "#t", st, rfl⟩

set_option maxRecDepth 20000 in
/-- A procedure that fails when it is called back is not blamed, but the one that calls it is. -/
theorem errors_disciplined_map :
    let st := (Session.start { depth := 0 }).store
    let e := Value.list 0 [.symbol "map", .symbol "car",
      .list 1 [.symbol "quote", .list 2 [.bool true]]]
    let err := Error.application "map" (.runtime (.notList "car" "#t"))
    ((eval 5 e ⟨0⟩).perform st).1 = .error err ∧ Task.Blames 5 (.eval e ⟨0⟩) st err "map" := by
  intro st e err
  have hfail : ((eval 5 e ⟨0⟩).perform st).1 = .error err := by rfl
  have hdisciplined : err.Disciplined (Task.Blames 5 (.eval e ⟨0⟩) st err) :=
    ((errors_disciplined 5 st).1 e ⟨0⟩ err _ (Prod.ext hfail rfl)).1
  exact ⟨hfail, (hdisciplined.marked_once "map" _ rfl).2.2⟩

end SmallScheme
