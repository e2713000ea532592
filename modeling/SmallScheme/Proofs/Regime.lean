import SmallScheme.Session
import SmallScheme.Proofs.Forms
import SmallScheme.Proofs.Store
import SmallScheme.Proofs.Within

/-! Regimes: what evaluation may rely on in a world, and how it may take a world to the next.

A world is a store together with what is known about it. This can be more than can be seen from the
store, such as a record of the lists that were made. The laws of a regime are about the primitive
actions only; `perform_obeys` carries them over to every evaluation and application, finished or
failed. -/
namespace SmallScheme

/-- Worlds, each with a store that is in order, and what evaluation may do from one to the next. -/
structure Regime where
  World : Type
  store : World → Store
  step : World → World → Prop
  /-- The values that may occur. -/
  admits : World → Value → Prop
  /-- The scopes that may be copied. -/
  readable : World → ScopeId → Prop
  /-- The scopes that may be evaluated in. -/
  writable : World → ScopeId → Prop
  step_refl : ∀ w, step w w
  step_trans : ∀ {a b c}, step a b → step b c → step a c
  admits_mono : ∀ {a b}, step a b → ∀ v, admits a v → admits b v
  readable_mono : ∀ {a b}, step a b → ∀ s, readable a s → readable b s
  writable_mono : ∀ {a b}, step a b → ∀ s, writable a s → writable b s
  readable_of_writable : ∀ {w s}, writable w s → readable w s
  hereditary : ∀ w, Value.Hereditary (admits w)
  closure : ∀ {w i params body s}, admits w (.closure i params body s) →
    admits w body ∧ readable w s
  get : ∀ {w s name v}, readable w s → (store w).get? s name = some v → admits w v
  newList : ∀ {w items}, (∀ v ∈ items, admits w v) →
    ∃ w', store w' = { store w with nextIdentity := (store w).nextIdentity + 1 } ∧ step w w' ∧
      admits w' (.list (store w).nextIdentity items)
  newClosure : ∀ {w params body s}, admits w body → readable w s →
    ∃ w', store w' = { store w with nextIdentity := (store w).nextIdentity + 1 } ∧ step w w' ∧
      admits w' (.closure (store w).nextIdentity params body s)
  extend : ∀ {w s more}, readable w s → (∀ p ∈ more, admits w p.2) →
    ∃ w', store w' = ((store w).extend s more).2 ∧ step w w' ∧
      writable w' ((store w).extend s more).1
  define : ∀ {w s name v}, writable w s → admits w v →
    ∃ w', store w' = (store w).define s name v ∧ step w w'
  display : ∀ {w v}, admits w v →
    ∃ w', store w' = { store w with shown := (store w).shown.push v } ∧ step w w'
  draw : ∀ w, ∃ w', store w' = { store w with draws := (store w).draws + 1 } ∧ step w w'

namespace Regime
variable (R : Regime) {α β : Type} {w : R.World}

/-- The values that may occur in a world. -/
abbrev Admits (w : R.World) (v : Value) : Prop := R.admits w v

/-- An action takes a world to one that evaluation may come to, whether it fails or not, and its
result satisfies `Q` there. -/
def Obeys (w : R.World) (a : Action α) (Q : R.World → α → Prop) : Prop :=
  ∃ w', R.store w' = (a.perform (R.store w)).2 ∧ R.step w w' ∧
    ∀ x, (a.perform (R.store w)).1 = .ok x → Q w' x

variable {R}

theorem Admits.step {w' : R.World} (hs : R.step w w') {v : Value} (h : R.Admits w v) :
    R.Admits w' v :=
  R.admits_mono hs v h

theorem admits_unspecified : R.Admits w .unspecified := (R.hereditary w).unspecified

theorem obeys_pure {x : α} {Q : R.World → α → Prop} (h : Q w x) : R.Obeys w (pure x) Q := by
  refine ⟨w, rfl, R.step_refl w, ?_⟩
  intro y hy
  cases hy
  exact h

theorem obeys_ofExcept {r : Except Error α} {Q : R.World → α → Prop}
    (h : ∀ x, r = .ok x → Q w x) : R.Obeys w (Action.ofExcept r) Q := by
  unfold Obeys
  rw [Action.perform_ofExcept]
  exact ⟨w, rfl, R.step_refl w, h⟩

theorem obeys_throw {e : Error} {Q : R.World → α → Prop} : R.Obeys w (throw e) Q := by
  refine ⟨w, rfl, R.step_refl w, ?_⟩
  intro x hx
  cases hx

theorem obeys_bind {a : Action α} {f : α → Action β} {Q : R.World → α → Prop}
    {P : R.World → β → Prop} (ha : R.Obeys w a Q)
    (hf : ∀ w' x, R.step w w' → Q w' x → R.Obeys w' (f x) P) : R.Obeys w (a >>= f) P := by
  obtain ⟨w1, hw1, hs1, hq⟩ := ha
  unfold Obeys
  rw [Action.perform_bind]
  rcases hr : a.perform (R.store w) with ⟨r, st1⟩
  rw [hr] at hw1 hq
  cases r with
  | error e =>
    -- what was done before the failure stays done
    refine ⟨w1, hw1, hs1, ?_⟩
    intro x hx
    cases hx
  | ok x =>
    obtain ⟨w2, hw2, hs2, hp⟩ := hf w1 x hs1 (hq x rfl)
    rw [hw1] at hw2 hp
    exact ⟨w2, hw2, R.step_trans hs1 hs2, hp⟩

/-- Changing the error of an action changes nothing else. -/
theorem obeys_rethrow {a : Action α} {f : Error → Error} {Q : R.World → α → Prop}
    (ha : R.Obeys w a Q) : R.Obeys w (tryCatch a fun e => throw (f e)) Q := by
  obtain ⟨w1, hw1, hs1, hq⟩ := ha
  unfold Obeys
  rw [Action.perform_tryCatch]
  rcases hr : a.perform (R.store w) with ⟨r, st1⟩
  rw [hr] at hw1 hq
  cases r with
  | error e =>
    refine ⟨w1, hw1, hs1, ?_⟩
    intro x hx
    cases hx
  | ok x => exact ⟨w1, hw1, hs1, hq⟩

theorem obeys_newList {items : List Value} (h : ∀ v ∈ items, R.Admits w v) :
    R.Obeys w (Action.newList items) R.Admits := by
  obtain ⟨w1, hw1, hs1, hv⟩ := R.newList h
  refine ⟨w1, hw1, hs1, ?_⟩
  intro v hr
  cases hr
  exact hv

theorem obeys_newClosure {params : List String} {body : Value} {s : ScopeId}
    (hb : R.Admits w body) (hs : R.readable w s) :
    R.Obeys w (Action.newClosure params body s) R.Admits := by
  obtain ⟨w1, hw1, hs1, hv⟩ := R.newClosure hb hs
  refine ⟨w1, hw1, hs1, ?_⟩
  intro v hr
  cases hr
  exact hv

theorem obeys_extend {s : ScopeId} {more : List (String × Value)} (hs : R.readable w s)
    (hm : ∀ p ∈ more, R.Admits w p.2) : R.Obeys w (Action.extend s more) R.writable := by
  obtain ⟨w1, hw1, hs1, hw⟩ := R.extend hs hm
  refine ⟨w1, hw1, hs1, ?_⟩
  intro x hr
  cases hr
  exact hw

theorem obeys_define {s : ScopeId} {name : String} {v : Value} (hw : R.writable w s)
    (ha : R.Admits w v) : R.Obeys w (Action.define s name v) (fun _ _ => True) := by
  obtain ⟨w1, hw1, hs1⟩ := R.define hw ha
  exact ⟨w1, hw1, hs1, fun _ _ => trivial⟩

theorem obeys_defineClosure {s : ScopeId} {name : String} {params : List String} {body : Value}
    (hw : R.writable w s) (hb : R.Admits w body) :
    R.Obeys w (do
      Action.define s name (← Action.newClosure params body s)
      return .unspecified) R.Admits := by
  refine obeys_bind (obeys_newClosure hb (R.readable_of_writable hw)) fun w1 v hs1 hv => ?_
  refine obeys_bind (obeys_define (R.writable_mono hs1 s hw) hv) fun w2 _ _ _ => ?_
  exact obeys_pure admits_unspecified

theorem obeys_set {s : ScopeId} {name : String} {v : Value} (hw : R.writable w s)
    (ha : R.Admits w v) : R.Obeys w (Action.set s name v) (fun _ _ => True) := by
  unfold Obeys
  rw [Action.perform_set]
  split
  · exact obeys_define hw ha
  · exact ⟨w, rfl, R.step_refl w, fun _ _ => trivial⟩

theorem obeys_lookup {s : ScopeId} {name : String} (hs : R.readable w s) :
    R.Obeys w (Action.lookup s name) R.Admits := by
  unfold Obeys
  rw [Action.perform_lookup]
  refine ⟨w, ?_, R.step_refl w, ?_⟩
  · cases (R.store w).get? s name <;> rfl
  · intro v hr
    cases hg : (R.store w).get? s name with
    | none =>
      rw [hg] at hr
      cases hr
    | some u =>
      rw [hg] at hr
      cases hr
      exact R.get hs hg

/-- What there is to do is allowed if it evaluates in a scope that may be written to and has only
values that may occur. -/
def Allows (R : Regime) (w : R.World) : Task → Prop
  | .eval e s => R.Admits w e ∧ R.writable w s
  | .apply procedure args => R.Admits w procedure ∧ ∀ v ∈ args, R.Admits w v

/-- Every allowed task keeps to the regime one level below. -/
def Lower (R : Regime) (below : Task → Action Value) : Prop :=
  ∀ w t, R.Allows w t → R.Obeys w (below t) R.Admits

/-- A combinator goes on with the procedure and the items that it was given. -/
theorem obeys_operands {op : String} {f v : Value} {k : Value → List Value → Action Value}
    (hf : R.Admits w f) (hv : R.Admits w v)
    (hk : ∀ w' g vs, R.step w w' → R.Admits w' g → (∀ u ∈ vs, R.Admits w' u) →
      R.Obeys w' (k g vs) R.Admits) :
    R.Obeys w (do
      let g ← Action.ofExcept (Task.procedureArg op f)
      let items ← Action.ofExcept (Primitive.items op v)
      k g items) R.Admits := by
  refine obeys_bind (Q := R.Admits) (obeys_ofExcept ?_) fun w1 g hs1 hg => ?_
  · intro g hg
    unfold Task.procedureArg at hg
    split at hg
    · cases hg
      exact hf
    · cases hg
  · refine obeys_bind (Q := fun w' vs => ∀ u ∈ vs, R.Admits w' u)
      (obeys_ofExcept fun vs hvs => Primitive.items_all (R.hereditary w1) (hv.step hs1) hvs) ?_
    intro w2 vs hs2 hvs
    exact hk w2 g vs (R.step_trans hs1 hs2) (hg.step hs2) hvs

section
variable {below : Task → Action Value} (hb : R.Lower below)
include hb

theorem obeys_images {f : Value} {vs : List Value} (hf : R.Admits w f)
    (hvs : ∀ v ∈ vs, R.Admits w v) :
    R.Obeys w (Task.images below f vs) (fun w' us => ∀ u ∈ us, R.Admits w' u) := by
  induction vs generalizing w with
  | nil => exact obeys_pure (by simp)
  | cons v vs ih =>
    simp only [List.forall_mem_cons] at hvs
    refine obeys_bind (hb w _ ⟨hf, by simpa using hvs.1⟩) ?_
    intro w1 u hs1 hw
    refine obeys_bind (ih (hf.step hs1) fun v hv => (hvs.2 v hv).step hs1) ?_
    intro w2 us hs2 hus
    exact obeys_pure (by simpa using ⟨hw.step hs2, hus⟩)

theorem obeys_keep {f : Value} {vs : List Value} (hf : R.Admits w f)
    (hvs : ∀ v ∈ vs, R.Admits w v) :
    R.Obeys w (Task.keep below f vs) (fun w' us => ∀ u ∈ us, R.Admits w' u) := by
  induction vs generalizing w with
  | nil => exact obeys_pure (by simp)
  | cons v vs ih =>
    simp only [List.forall_mem_cons] at hvs
    refine obeys_bind (hb w _ ⟨hf, by simpa using hvs.1⟩) ?_
    intro w1 u hs1 hw
    refine obeys_bind (ih (hf.step hs1) fun v hv => (hvs.2 v hv).step hs1) ?_
    intro w2 us hs2 hus
    refine obeys_pure ?_
    split
    · simpa using ⟨(hvs.1.step hs1).step hs2, hus⟩
    · exact hus

theorem obeys_accumulate {f acc : Value} {vs : List Value} (hf : R.Admits w f)
    (hacc : R.Admits w acc) (hvs : ∀ v ∈ vs, R.Admits w v) :
    R.Obeys w (Task.accumulate below f acc vs) R.Admits := by
  induction vs generalizing w acc with
  | nil => exact obeys_pure hacc
  | cons v vs ih =>
    simp only [List.forall_mem_cons] at hvs
    refine obeys_bind (hb w _ ⟨hf, by simpa using ⟨hacc, hvs.1⟩⟩) ?_
    intro w1 u hs1 hw
    exact ih (hf.step hs1) hw fun v hv => (hvs.2 v hv).step hs1

theorem obeys_evalAll {s : ScopeId} {es : List Value} (hw : R.writable w s)
    (hes : ∀ e ∈ es, R.Admits w e) :
    R.Obeys w (Task.evalAll below s es) (fun w' vs => ∀ v ∈ vs, R.Admits w' v) := by
  induction es generalizing w with
  | nil => exact obeys_pure (by simp)
  | cons e es ih =>
    simp only [List.forall_mem_cons] at hes
    refine obeys_bind (hb w _ ⟨hes.1, hw⟩) ?_
    intro w1 v hs1 hv
    refine obeys_bind (ih (R.writable_mono hs1 s hw) fun e he => (hes.2 e he).step hs1) ?_
    intro w2 vs hs2 hvs
    exact obeys_pure (by simpa using ⟨hv.step hs2, hvs⟩)

theorem obeys_combine {c : Combinator} {args : List Value} (hargs : ∀ v ∈ args, R.Admits w v) :
    R.Obeys w (Task.combine below c args) R.Admits := by
  unfold Task.combine
  split
  all_goals try exact obeys_throw
  all_goals simp only [List.forall_mem_cons] at hargs
  -- `map`, `filter`, `fold`, `reduce` and `apply`, each on as many arguments as it takes
  · refine obeys_operands hargs.1 hargs.2.1 fun w1 g vs hs1 hg hvs => ?_
    refine obeys_bind (obeys_images hb hg hvs) fun w2 us hs2 hus => ?_
    exact obeys_newList hus
  · refine obeys_operands hargs.1 hargs.2.1 fun w1 g vs hs1 hg hvs => ?_
    refine obeys_bind (obeys_keep hb hg hvs) fun w2 us hs2 hus => ?_
    exact obeys_newList hus
  · refine obeys_operands hargs.1 hargs.2.2.1 fun w1 g vs hs1 hg hvs => ?_
    exact obeys_accumulate hb hg (hargs.2.1.step hs1) hvs
  · refine obeys_operands hargs.1 hargs.2.2.1 fun w1 g vs hs1 hg hvs => ?_
    exact obeys_accumulate hb hg (hargs.2.1.step hs1) hvs
  · refine obeys_operands hargs.1 hargs.2.1 fun w1 g vs hs1 hg hvs => ?_
    exact hb w1 _ ⟨hg, hvs⟩

theorem obeys_invoke {op : Builtin} {args : List Value} (hargs : ∀ v ∈ args, R.Admits w v) :
    R.Obeys w (Task.invoke below op args) R.Admits := by
  unfold Task.invoke
  split
  · next p args =>
      refine obeys_bind (Q := fun w' r => r.All (R.Admits w'))
        (obeys_ofExcept fun r hr => Primitive.reply_all (R.hereditary w) hargs hr) ?_
      intro w1 r hs1 hr
      cases r with
      | value v => exact obeys_pure hr
      | fresh items => exact obeys_newList hr
  · exact obeys_combine hb hargs
  -- a draw and a shown value leave scopes and identities alone
  · refine obeys_bind (Q := fun _ _ => True) ?_ fun w1 x _ _ =>
      obeys_pure ((R.hereditary w1).number x)
    obtain ⟨w1, hw1, hs1⟩ := R.draw w
    exact ⟨w1, hw1, hs1, fun _ _ => trivial⟩
  · exact obeys_throw
  · next v =>
      refine obeys_bind (Q := fun _ _ => True) ?_ fun _ _ _ _ => obeys_pure admits_unspecified
      obtain ⟨w1, hw1, hs1⟩ := R.display (hargs v (by simp))
      exact ⟨w1, hw1, hs1, fun _ _ => trivial⟩
  · exact obeys_throw

theorem obeys_applyStep {procedure : Value} {args : List Value} (hp : R.Admits w procedure)
    (hargs : ∀ v ∈ args, R.Admits w v) :
    R.Obeys w (Task.applyStep below procedure args) R.Admits := by
  unfold Task.applyStep
  split
  · next op args =>
      refine obeys_bind (obeys_ofExcept (Q := fun _ _ => True) fun _ _ => trivial) ?_
      intro w1 _ hs1 _
      exact obeys_invoke hb fun v hv => (hargs v hv).step hs1
  · next i params body s args =>
      -- the body runs in the copy, which is writable although the captured scope need not be
      obtain ⟨hbody, hs⟩ := R.closure hp
      split
      · refine obeys_bind (obeys_extend hs ?_) ?_
        · intro p hm
          exact hargs p.2 (List.of_mem_zip hm).2
        · intro w1 inner hs1 hw
          exact hb w1 _ ⟨Admits.step hs1 hbody, hw⟩
      · exact obeys_throw
  · exact obeys_throw

end

theorem bindingPairs_admitted {form : SpecialForm} {bindings : Value}
    {pairs : List (String × Value)} (hb : R.Admits w bindings)
    (h : SpecialForm.bindingPairs form bindings = .ok pairs) : ∀ p ∈ pairs, R.Admits w p.2 := by
  obtain ⟨i, items, rfl, hbinds⟩ := SpecialForm.binds_of_bindingPairs h
  have hitems := (R.hereditary w).items hb
  clear hb h
  induction hbinds with
  | nil => simp
  | cons hbind _ ih =>
    obtain ⟨j, rfl⟩ := hbind
    simp only [List.forall_mem_cons] at hitems ⊢
    have hpair := (R.hereditary w).items hitems.1
    exact ⟨hpair _ (by simp), ih hitems.2⟩

section
variable {run : Value → ScopeId → Action Value}
  (hr : ∀ w e s, R.Admits w e → R.writable w s → R.Obeys w (run e s) R.Admits)
include hr

theorem obeys_runAll {s : ScopeId} {es : List Value} (hw : R.writable w s)
    (hes : ∀ e ∈ es, R.Admits w e) : R.Obeys w (SpecialForm.runAll run s es) R.Admits := by
  induction es generalizing w with
  | nil => exact obeys_pure (R.hereditary w).nil
  | cons e es ih =>
    simp only [List.forall_mem_cons] at hes
    cases es with
    | nil => exact hr w e s hes.1 hw
    | cons e' es =>
      refine obeys_bind (hr w e s hes.1 hw) ?_
      intro w1 _ hs1 _
      exact ih (R.writable_mono hs1 s hw) fun e he => (hes.2 e he).step hs1

theorem obeys_runClauses {s : ScopeId} {clauses : List Value} (hw : R.writable w s)
    (hc : ∀ c ∈ clauses, R.Admits w c) :
    R.Obeys w (SpecialForm.runClauses run s clauses) R.Admits := by
  induction clauses generalizing w with
  | nil => exact obeys_pure (R.hereditary w).nil
  | cons c cs ih =>
    simp only [List.forall_mem_cons] at hc
    unfold SpecialForm.runClauses
    split
    · contradiction
    · next i test e body clauses heq =>
        cases heq
        have hitems := (R.hereditary w).items hc.1
        simp only [List.forall_mem_cons] at hitems
        have hbody : ∀ x ∈ e :: body, R.Admits w x := List.forall_mem_cons.mpr hitems.2
        -- `else` stands where there is no test to evaluate
        split
        · exact obeys_runAll hr hw hbody
        · refine obeys_bind (hr w test s hitems.1 hw) ?_
          intro w1 v hs1 _
          have hw1 := R.writable_mono hs1 s hw
          split
          · exact obeys_runAll hr hw1 fun x hx => (hbody x hx).step hs1
          · exact ih hw1 fun c hm => (hc.2 c hm).step hs1
    · exact obeys_throw

theorem obeys_runDefine {s : ScopeId} {args : List Value} (hw : R.writable w s)
    (hargs : ∀ v ∈ args, R.Admits w v) :
    R.Obeys w (SpecialForm.runDefine run s args) R.Admits := by
  unfold SpecialForm.runDefine
  split
  · next name e =>
      refine obeys_bind (hr w e s (hargs e (by simp)) hw) fun w1 v hs1 hv => ?_
      refine obeys_bind (obeys_define (R.writable_mono hs1 s hw) hv) fun w2 _ _ _ => ?_
      exact obeys_pure admits_unspecified
  · next i name params body =>
      simp only [List.forall_mem_cons] at hargs
      refine obeys_bind (obeys_ofExcept (Q := fun _ _ => True) fun _ _ => trivial) ?_
      intro w1 names hs1 _
      have hw1 := R.writable_mono hs1 s hw
      -- a body of several expressions becomes one that runs them in order
      split
      · next e =>
          refine obeys_bind (obeys_pure ?_) fun w2 e hs2 he =>
            obeys_defineClosure (R.writable_mono hs2 s hw1) he
          exact (hargs.2 e (by simp)).step hs1
      · next es _ =>
          refine obeys_bind (obeys_newList ?_) fun w2 e hs2 he =>
            obeys_defineClosure (R.writable_mono hs2 s hw1) he
          have hname := (R.hereditary w1).symbol SpecialForm.sequence.name
          exact List.forall_mem_cons.mpr ⟨hname, fun v hv => (hargs.2 v hv).step hs1⟩
  all_goals exact obeys_throw

theorem obeys_runAssign {s : ScopeId} {args : List Value} (hw : R.writable w s)
    (hargs : ∀ v ∈ args, R.Admits w v) :
    R.Obeys w (SpecialForm.runAssign run s args) R.Admits := by
  unfold SpecialForm.runAssign
  split
  · next name e =>
      -- whether the name is bound is asked before the expression is evaluated and again after
      refine obeys_bind (Q := fun _ _ => True) ?_ fun w1 now hs1 _ => ?_
      · exact ⟨w, rfl, R.step_refl w, fun _ _ => trivial⟩
      have hw1 := R.writable_mono hs1 s hw
      split
      · refine obeys_bind (hr w1 e s ((hargs e (by simp)).step hs1) hw1) fun w2 v hs2 hv => ?_
        refine obeys_bind (obeys_set (R.writable_mono hs2 s hw1) hv) fun w3 _ _ _ => ?_
        exact obeys_pure admits_unspecified
      · exact obeys_throw
  all_goals exact obeys_throw

omit hr in
theorem obeys_runLambda {s : ScopeId} {args : List Value} (hw : R.writable w s)
    (hargs : ∀ v ∈ args, R.Admits w v) : R.Obeys w (SpecialForm.runLambda s args) R.Admits := by
  unfold SpecialForm.runLambda
  split
  · next i params body =>
      refine obeys_bind (obeys_ofExcept (Q := fun _ _ => True) fun _ _ => trivial) ?_
      intro w1 names hs1 _
      exact obeys_newClosure ((hargs body (by simp)).step hs1)
        (R.readable_mono hs1 s (R.readable_of_writable hw))
  all_goals exact obeys_throw

theorem obeys_runBindings {s : ScopeId} {pairs : List (String × Value)} (hw : R.writable w s)
    (hp : ∀ p ∈ pairs, R.Admits w p.2) :
    R.Obeys w (SpecialForm.runBindings run s pairs)
      (fun w' vs => ∀ p ∈ vs, R.Admits w' p.2) := by
  induction pairs generalizing w with
  | nil => exact obeys_pure (by simp)
  | cons p pairs ih =>
    simp only [List.forall_mem_cons] at hp
    refine obeys_bind (hr w p.2 s hp.1 hw) fun w1 v hs1 hv => ?_
    refine obeys_bind (ih (R.writable_mono hs1 s hw) fun p hm => (hp.2 p hm).step hs1) ?_
    intro w2 vs hs2 hvs
    exact obeys_pure (List.forall_mem_cons.mpr ⟨hv.step hs2, hvs⟩)

/-- The scope that the bindings of a chain end in is one that may be written to. -/
theorem obeys_runChain {s : ScopeId} {pairs : List (String × Value)} (hw : R.writable w s)
    (hp : ∀ p ∈ pairs, R.Admits w p.2) :
    R.Obeys w (SpecialForm.runChain run s pairs) R.writable := by
  induction pairs generalizing w s with
  | nil => exact obeys_pure hw
  | cons p pairs ih =>
    simp only [List.forall_mem_cons] at hp
    refine obeys_bind (hr w p.2 s hp.1 hw) fun w1 v hs1 hv => ?_
    have hs := R.readable_of_writable (R.writable_mono hs1 s hw)
    refine obeys_bind (obeys_extend hs (by simpa using hv)) fun w2 inner hs2 hw2 => ?_
    exact ih hw2 fun p hm => ((hp.2 p hm).step hs1).step hs2

theorem obeys_runLet {s : ScopeId} {args : List Value} (hw : R.writable w s)
    (hargs : ∀ v ∈ args, R.Admits w v) :
    R.Obeys w (SpecialForm.runLet run s args) R.Admits := by
  unfold SpecialForm.runLet
  split
  · next bindings body =>
      simp only [List.forall_mem_cons] at hargs
      refine obeys_bind (Q := fun w' ps => ∀ p ∈ ps, R.Admits w' p.2)
        (obeys_ofExcept fun pairs hp => bindingPairs_admitted hargs.1 hp) ?_
      intro w1 pairs hs1 hp
      have hw1 := R.writable_mono hs1 s hw
      refine obeys_bind (obeys_runBindings hr hw1 hp) fun w2 vs hs2 hvs => ?_
      have hs := R.readable_of_writable (R.writable_mono hs2 s hw1)
      refine obeys_bind (obeys_extend hs hvs) fun w3 inner hs3 hw3 => ?_
      exact obeys_runAll hr hw3 fun e he => (((hargs.2 e he).step hs1).step hs2).step hs3
  · exact obeys_throw

/-- A chain of bindings runs in copies only, so its scope need not be writable. -/
theorem obeys_runLetSeq {s : ScopeId} {args : List Value} (hs : R.readable w s)
    (hargs : ∀ v ∈ args, R.Admits w v) :
    R.Obeys w (SpecialForm.runLetSeq run s args) R.Admits := by
  unfold SpecialForm.runLetSeq
  split
  · next bindings body =>
      simp only [List.forall_mem_cons] at hargs
      refine obeys_bind (obeys_extend hs (by simp)) fun w1 outer hs1 hw1 => ?_
      refine obeys_bind (Q := fun w' ps => ∀ p ∈ ps, R.Admits w' p.2)
        (obeys_ofExcept fun pairs hp => bindingPairs_admitted (hargs.1.step hs1) hp) ?_
      intro w2 pairs hs2 hp
      refine obeys_bind (obeys_runChain hr (R.writable_mono hs2 _ hw1) hp) ?_
      intro w3 inner hs3 hw3
      exact obeys_runAll hr hw3 fun e he => (((hargs.2 e he).step hs1).step hs2).step hs3
  · exact obeys_throw

theorem obeys_runConditional {s : ScopeId} {args : List Value} (hw : R.writable w s)
    (hargs : ∀ v ∈ args, R.Admits w v) :
    R.Obeys w (SpecialForm.runConditional run s args) R.Admits := by
  unfold SpecialForm.runConditional
  split
  · next test consequent alternatives =>
      simp only [List.forall_mem_cons] at hargs
      refine obeys_bind (hr w test s hargs.1 hw) fun w1 v hs1 _ => ?_
      have hw1 := R.writable_mono hs1 s hw
      split
      · exact hr w1 consequent s (hargs.2.1.step hs1) hw1
      · split
        · exact obeys_pure (R.hereditary w1).nil
        · next alternative _ =>
            exact hr w1 alternative s ((hargs.2.2 alternative (by simp)).step hs1) hw1
  · exact obeys_throw

theorem obeys_evaluate {form : SpecialForm} {s : ScopeId} {args : List Value}
    (hw : R.writable w s) (hargs : ∀ v ∈ args, R.Admits w v) :
    R.Obeys w (form.evaluate run s args) R.Admits := by
  cases form with
  | quote =>
    refine obeys_pure ?_
    cases args with
    | nil => exact (R.hereditary w).nil
    | cons v vs => exact hargs v (by simp)
  | conditional => exact obeys_runConditional hr hw hargs
  | cond => exact obeys_runClauses hr hw hargs
  | define => exact obeys_runDefine hr hw hargs
  | assign => exact obeys_runAssign hr hw hargs
  | lambda => exact obeys_runLambda hw hargs
  | letIn => exact obeys_runLet hr hw hargs
  | letSeq => exact obeys_runLetSeq hr (R.readable_of_writable hw) hargs
  | sequence => exact obeys_runAll hr hw hargs

end

section
variable {below : Task → Action Value} (hb : R.Lower below)
include hb

theorem obeys_evalApplication {s : ScopeId} {head : Value} {args : List Value}
    (hw : R.writable w s) (hh : R.Admits w head) (hargs : ∀ v ∈ args, R.Admits w v) :
    R.Obeys w (Task.evalApplication below s head args) R.Admits := by
  refine obeys_bind (hb w _ ⟨hh, hw⟩) fun w1 procedure hs1 hp => ?_
  refine obeys_bind
    (obeys_evalAll hb (R.writable_mono hs1 s hw) fun v hv => (hargs v hv).step hs1) ?_
  intro w2 vs hs2 hvs
  split
  · exact obeys_rethrow (hb w2 _ ⟨hp.step hs2, hvs⟩)
  · exact obeys_throw

theorem obeys_evalList {s : ScopeId} {head : Value} {args : List Value} (hw : R.writable w s)
    (hh : R.Admits w head) (hargs : ∀ v ∈ args, R.Admits w v) :
    R.Obeys w (Task.evalList below s head args) R.Admits := by
  rw [Task.evalList]
  split
  · next form _ =>
      refine obeys_bind (obeys_ofExcept (Q := fun _ _ => True) fun _ _ => trivial) ?_
      intro w1 _ hs1 _
      refine obeys_evaluate ?_ (R.writable_mono hs1 s hw) fun v hv => (hargs v hv).step hs1
      intro w2 e s2 he hw2
      exact hb w2 _ ⟨he, hw2⟩
  · exact obeys_evalApplication hb hw hh hargs

theorem obeys_evalStep {s : ScopeId} {e : Value} (hw : R.writable w s) (he : R.Admits w e) :
    R.Obeys w (Task.evalStep below s e) R.Admits := by
  unfold Task.evalStep
  split
  · split
    · exact obeys_pure ((R.hereditary w).string _)
    · exact obeys_lookup (R.readable_of_writable hw)
  · next i head args =>
      have hitems := (R.hereditary w).items he
      simp only [List.forall_mem_cons] at hitems
      exact obeys_evalList hb hw hitems.1 hitems.2
  · exact obeys_pure he

end

/-- Evaluation keeps to every regime, to any depth. -/
theorem perform_obeys (R : Regime) (depth : Nat) : R.Lower (Task.perform depth) := by
  induction depth with
  | zero =>
    intro w t _
    exact obeys_throw
  | succ depth ih =>
    intro w t ht
    cases t with
    | eval e s => exact obeys_evalStep ih ht.2 ht.1
    | apply procedure args => exact obeys_applyStep ih ht.1 ht.2

/-- So do the forms of a program, if loading them does. -/
theorem obeys_evalForms (hload : ∀ w d, R.Obeys w (Action.load d) R.Admits) (depth : Nat)
    {s : ScopeId} {last : Value} (ds : List Datum) (hs : R.writable w s) (hl : R.Admits w last) :
    R.Obeys w (evalForms depth s last ds) R.Admits := by
  induction ds generalizing w last with
  | nil => exact obeys_pure hl
  | cons d ds ih =>
    -- the form is loaded when it is its turn, so its identities come after those made before
    refine obeys_bind (hload w d) ?_
    intro w1 e hs1 he
    have h1 := R.writable_mono hs1 s hs
    refine obeys_bind (R.perform_obeys depth w1 (.eval e s) ⟨he, h1⟩) ?_
    intro w2 v hs2 hv
    exact ih (R.writable_mono hs2 s h1) hv

theorem obeys_program (hload : ∀ w d, R.Obeys w (Action.load d) R.Admits) (depth : Nat)
    {s : ScopeId} (p : Program) (hs : R.writable w s) : R.Obeys w (p.eval depth s) R.Admits := by
  refine obeys_bind (obeys_evalForms hload depth p.forms hs admits_unspecified) ?_
  intro w1 v _ hv
  cases p.fault? with
  | none => exact obeys_pure hv
  | some fault => exact obeys_throw

end Regime

end SmallScheme
