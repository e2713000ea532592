import SmallScheme.Proofs.Depth
import SmallScheme.Proofs.Failure
import SmallScheme.Proofs.Reachable

/-! The course of evaluation: the stores that it passes through.

A discipline speaks of the store before a task and of the store after it. It also holds in between. A
task that the discipline does not allow may leave any store at all, so if evaluation came to one then
the store at the end would not have to be valid. -/
namespace SmallScheme

namespace Task
variable {below below' : Task → Action Value} {t u : Task} {st su lost : Store}

open Classical in
/-- The level below, except that one task in one store goes astray: it nests too deep, and leaves a
store that is lost. -/
noncomputable def astray (below : Task → Action Value) (u : Task) (su lost : Store) :
    Task → Action Value := fun t => ExceptT.mk fun st =>
  if t = u ∧ st = su then (.error .tooDeep, lost) else (below t).perform st

theorem perform_astray (below : Task → Action Value) (u : Task) (su lost : Store) :
    (astray below u su lost u).perform su = (.error .tooDeep, lost) := by
  classical
  exact if_pos ⟨rfl, rfl⟩

theorem perform_astray_other (h : ¬ (t = u ∧ st = su)) (lost : Store) :
    (astray below u su lost t).perform st = (below t).perform st := by
  classical
  exact if_neg h

/-- Unless it comes to the task that goes astray, every level that differs only there does the same. -/
theorem follows_astray {bad : Store → Prop} (hlost : bad lost)
    (h : ∀ v sv, ¬ (v = u ∧ sv = su) → (below' v).perform sv = (below v).perform sv) (t : Task) :
    Action.Follows bad id (astray below u su lost t) (below' t) := by
  intro st hkept
  by_cases hat : t = u ∧ st = su
  · obtain ⟨rfl, rfl⟩ := hat
    rw [perform_astray] at hkept
    exact absurd hlost (hkept rfl)
  · rw [perform_astray_other hat, h t st hat, Except.map_id]
    rfl

theorem step_follows {bad : Store → Prop} (h : ∀ t, Action.Follows bad id (below t) (below' t))
    (t : Task) : Action.Follows bad id (t.step below) (t.step below') := by
  have hb (u : Task) :
      (following bad).Rel (Value.rename .same) (below u) (below' (u.rename .same)) := by
    rw [Value.rename_same, rename_same]
    exact h u
  have hstep : (following bad).Rel (Value.rename .same) (t.step below)
      ((t.rename .same).step below') := by
    cases t with
    | eval e s => exact Transfer.rel_evalStep hb s e
    | apply procedure args => exact Transfer.rel_applyStep hb procedure args
  rwa [Value.rename_same, rename_same] at hstep

end Task

namespace Discipline
variable {D : Discipline} {below : Task → Action Value} {t u : Task} {st su lost : Store}

theorem Lower.step (hb : D.Lower below) (ht : D.Allows st t) :
    D.Obeys st (t.step below) D.Admits := by
  cases t with
  | eval e s => exact obeys_evalStep hb ht.2 ht.1
  | apply procedure args => exact obeys_applyStep hb ht.1 ht.2

/-- A discipline says nothing of a task that it does not allow, so that one may go astray. -/
theorem Lower.astray (hb : D.Lower below) (h : ¬ (D.valid su ∧ D.Allows su u)) (lost : Store) :
    D.Lower (Task.astray below u su lost) := by
  intro st t ht hv
  have hat : ¬ (t = u ∧ st = su) := by
    rintro ⟨rfl, rfl⟩
    exact h ⟨hv, ht⟩
  rw [Task.perform_astray_other hat]
  exact hb st t ht hv

/-- Work that a discipline allows does nothing below that the discipline does not allow. -/
theorem Lower.calls (hb : D.Lower below) (hlost : ¬ D.valid lost) (hv : D.valid st)
    (ht : D.Allows st t) (h : Task.Calls below t st u su) : D.valid su ∧ D.Allows su u := by
  by_contra hnot
  obtain ⟨below', hagree, hdiffer⟩ := h
  -- with that task astray the store that is left is still valid, so the task was not come to
  have hvalid := ((hb.astray hnot lost).step ht hv).1
  have hsame {other : Task → Action Value}
      (h : ∀ v sv, ¬ (v = u ∧ sv = su) → (other v).perform sv = (below v).perform sv) :
      (t.step other).perform st = (t.step (Task.astray below u su lost)).perform st := by
    have hfollows (v : Task) : Action.Follows (fun st => ¬ D.valid st) id
        (Task.astray below u su lost v) (other v) := Task.follows_astray hlost h v
    exact (Task.step_follows hfollows t).eq fun _ hbad => hbad hvalid
  apply hdiffer
  calc (t.step below').perform st = _ := hsame hagree
    _ = (t.step below).perform st := (hsame fun _ _ _ => rfl).symm

/-- All tasks that evaluation comes to are allowed. -/
theorem occurs (hlost : ¬ D.valid lost) {depth left : Nat} (h : Task.Occurs depth t st left u su)
    (hv : D.valid st) (ht : D.Allows st t) : D.valid su ∧ D.Allows su u := by
  induction h with
  | self => exact ⟨hv, ht⟩
  | call hcalls _ ih =>
    obtain ⟨hv', ht'⟩ := (D.perform_obeys _).calls hlost hv ht hcalls
    exact ih hv' ht'

end Discipline

/-- Evaluation to a given depth passes through the store, when it begins a task or ends one. -/
inductive Task.Passes (depth : Nat) (t : Task) (st : Store) : Store → Prop where
  | start {left : Nat} {u : Task} {su : Store} : Occurs depth t st left u su → Passes depth t st su
  | finish {left : Nat} {u : Task} {su : Store} : Occurs depth t st left u su →
      Passes depth t st ((u.perform left).perform su).2

/-- Evaluation of forms in order passes through the store, on its way through one of them. -/
inductive FormsPass (depth : Nat) (s : ScopeId) : List Datum → Store → Store → Prop where
  | here {d : Datum} {ds : List Datum} {e : Value} {st st1 st' : Store} :
      (Action.load d).perform st = (.ok e, st1) → Task.Passes depth (.eval e s) st1 st' →
        FormsPass depth s (d :: ds) st st'
  | later {d : Datum} {ds : List Datum} {e v : Value} {st st1 st2 st' : Store} :
      (Action.load d).perform st = (.ok e, st1) → (eval depth e s).perform st1 = (.ok v, st2) →
        FormsPass depth s ds st2 st' → FormsPass depth s (d :: ds) st st'

namespace Discipline
variable {D : Discipline} {depth : Nat} {st st' : Store}

/-- Every store that evaluation passes through is valid. -/
theorem valid_of_passes {t : Task} (h : t.Passes depth st st') (hv : D.valid st)
    (ht : D.Allows st t) : D.valid st' := by
  by_cases hall : ∀ lost, D.valid lost
  · exact hall st'
  · obtain ⟨lost, hlost⟩ := not_forall.mp hall
    cases h with
    | start hoccurs => exact (occurs hlost hoccurs hv ht).1
    | @finish left u su hoccurs =>
      obtain ⟨hv', ht'⟩ := occurs hlost hoccurs hv ht
      exact (D.perform_obeys left su u ht' hv').1

theorem valid_of_formsPass (hload : ∀ st d, D.Obeys st (Action.load d) D.Admits) {s : ScopeId}
    {ds : List Datum} (h : FormsPass depth s ds st st') (hv : D.valid st) (hs : D.writable st s) :
    D.valid st' := by
  induction h with
  | @here d _ e st _ _ hform hpasses =>
    obtain ⟨hv1, hstep, he⟩ := hload st d hv
    rw [hform] at hv1 hstep he
    exact valid_of_passes hpasses hv1 ⟨he e rfl, D.writable_mono hstep s hs⟩
  | @later d _ e v st st1 _ _ hform hvalue _ ih =>
    obtain ⟨hv1, hstep, he⟩ := hload st d hv
    rw [hform] at hv1 hstep he
    have hs1 := D.writable_mono hstep s hs
    obtain ⟨hv2, hstep', _⟩ := D.eval_obeys depth st1 e s (he e rfl) hs1 hv1
    change D.valid ((eval depth e s).perform st1).2 at hv2
    change D.step st1 ((eval depth e s).perform st1).2 at hstep'
    rw [hvalue] at hv2 hstep'
    exact ih hv2 (D.writable_mono hstep' s hs1)

end Discipline

end SmallScheme
