import SmallScheme.Proofs.Depth
import SmallScheme.Proofs.Repetition

/-! Lockstep: two evaluations from stores that match go on in step.

The stores are to agree in their random numbers too. Then nothing is excluded: the evaluations draw
the same numbers, nest too deep together, and come to the same outcome up to the renaming. -/
namespace SmallScheme

/-- One store is the other up to a renaming, and both go on to draw the same random numbers. -/
structure Store.InStep (ρ : Renaming) (old : List Value × List Value) (a b : Store) : Prop
    extends Store.Matches ρ old a b where
  numbers : b.numbers = a.numbers
  draws : b.draws = a.draws

theorem Store.InStep.define {ρ : Renaming} {old : List Value × List Value} {a b : Store}
    (h : a.InStep ρ old b) (s : ScopeId) (name : String) (v : Value) :
    (a.define s name v).InStep ρ old (b.define (ρ.scope s) name (v.rename ρ)) :=
  ⟨h.toMatches.define s name v, h.numbers, h.draws⟩

namespace Action
variable {ρ : Renaming} {old : List Value × List Value} {α β γ δ : Type}

/-- From stores in step, both actions lead to stores in step, with results that correspond
under `f`. -/
def Parallels (ρ : Renaming) (old : List Value × List Value) (f : α → β) (p : Action α)
    (q : Action β) : Prop :=
  ∀ a b, a.InStep ρ old b →
    (p.perform a).2.InStep ρ old (q.perform b).2 ∧ (q.perform b).1 = (p.perform a).1.map f

theorem Parallels.pure {f : α → β} {x : α} {y : β} (h : y = f x) :
    Parallels ρ old f (pure x) (pure y) := by
  intro a b hab
  refine ⟨hab, ?_⟩
  rw [h]
  rfl

theorem Parallels.throw {f : α → β} {e e' : Error} (h : e' = e) :
    Parallels ρ old f (throw e) (throw e') := by
  intro a b hab
  refine ⟨hab, ?_⟩
  rw [h]
  rfl

theorem Parallels.bind {f : α → β} {g : γ → δ} {p : Action α} {q : Action β} {k : α → Action γ}
    {l : β → Action δ} (hp : Parallels ρ old f p q) (hk : ∀ x, Parallels ρ old g (k x) (l (f x))) :
    Parallels ρ old g (p >>= k) (q >>= l) := by
  intro a b hab
  obtain ⟨hstep, hresult⟩ := hp a b hab
  rw [perform_bind, perform_bind]
  rcases hpa : p.perform a with ⟨r, a1⟩
  rcases hqb : q.perform b with ⟨r', b1⟩
  rw [hpa, hqb] at hstep hresult
  dsimp only at hresult
  subst hresult
  cases r with
  | error e => exact ⟨hstep, rfl⟩
  | ok x => exact hk x a1 b1 hstep

theorem Parallels.rethrow {f : α → β} {p : Action α} {q : Action β} (g : Error → Error)
    (hp : Parallels ρ old f p q) :
    Parallels ρ old f (tryCatch p fun e => MonadExcept.throw (g e))
      (tryCatch q fun e => MonadExcept.throw (g e)) := by
  intro a b hab
  obtain ⟨hstep, hresult⟩ := hp a b hab
  rw [perform_tryCatch, perform_tryCatch]
  rcases hpa : p.perform a with ⟨r, a1⟩
  rcases hqb : q.perform b with ⟨r', b1⟩
  rw [hpa, hqb] at hstep hresult
  dsimp only at hresult
  subst hresult
  cases r <;> exact ⟨hstep, rfl⟩

theorem Parallels.draw : Parallels ρ old id draw draw := by
  intro a b hab
  refine ⟨{ hab with draws := congrArg Nat.succ hab.draws }, ?_⟩
  rw [Except.map_id, perform_draw, perform_draw, hab.numbers, hab.draws]
  rfl

theorem Parallels.lookup (s : ScopeId) (name : String) :
    Parallels ρ old (Value.rename ρ) (lookup s name) (lookup (ρ.scope s) name) := by
  intro a b hab
  rw [perform_lookup, perform_lookup, hab.get]
  cases a.get? s name <;> exact ⟨hab, rfl⟩

theorem Parallels.ifBound {f : α → β} (s : ScopeId) (name : String) {p p' : Action α}
    {q q' : Action β} (hp : Parallels ρ old f p q) (hp' : Parallels ρ old f p' q') :
    Parallels ρ old f (do if (← get).contains s name then p else p')
      (do if (← get).contains (ρ.scope s) name then q else q') := by
  intro a b hab
  rw [perform_bind, perform_bind, perform_get, perform_get]
  dsimp only
  rw [hab.contains]
  split
  · exact hp a b hab
  · exact hp' a b hab

end Action

open SmallScheme.Action (Parallels)

/-- Going on in step as a relation between actions. -/
def lockstep (ρ : Renaming) (old : List Value × List Value) : Transfer ρ where
  Rel := Parallels ρ old
  rel_pure := Parallels.pure
  rel_throw := Parallels.throw
  rel_bind := Parallels.bind
  rel_rethrow _ := Parallels.rethrow _
  rel_identity a b hab := by
    refine ⟨⟨hab.identities 1, hab.numbers, hab.draws⟩, ?_⟩
    exact congrArg Except.ok (hab.identity 0).symm
  rel_extend s more a b hab := by
    refine ⟨⟨hab.extend s more, hab.numbers, hab.draws⟩, ?_⟩
    exact congrArg Except.ok (hab.scope 0).symm
  rel_define s name v a b hab := ⟨hab.define s name v, rfl⟩
  rel_display v a b hab := ⟨⟨hab.display v, hab.numbers, hab.draws⟩, rfl⟩
  rel_draw := Parallels.draw
  rel_lookup := Parallels.lookup
  rel_ifBound := Parallels.ifBound

/-- Evaluation and application go on in step. -/
theorem Task.perform_parallels (ρ : Renaming) (old : List Value × List Value) (depth : Nat)
    (t : Task) : Parallels ρ old (Value.rename ρ) (t.perform depth) ((t.rename ρ).perform depth) := by
  induction depth generalizing t with
  | zero => exact Parallels.throw rfl
  | succ depth ih => exact Transfer.rel_perform_succ (T := lockstep ρ old) ih t

namespace Value

mutual
/-- Loading a datum from another identity on gives the same value up to a renaming. -/
theorem load_rename {ρ : Renaming} (d : Datum) {n n' : Nat}
    (h : ∀ k < d.lists, ρ.identity (n + k) = n' + k) :
    (load d n').1 = (load d n).1.rename ρ := by
  cases d with
  | number x => rfl
  | bool b => rfl
  | symbol name => rfl
  | list items =>
    have hitems : (loadAll items (n' + 1)).1 = (loadAll items (n + 1)).1.map (rename ρ) := by
      apply loadAll_rename
      intro k hk
      rw [Nat.add_assoc, Nat.add_assoc]
      apply h
      rw [Datum.lists]
      omega
    have h0 : ρ.identity n = n' := h 0 (Nat.succ_pos _)
    change list n' (loadAll items (n' + 1)).1 = (list n (loadAll items (n + 1)).1).rename ρ
    rw [rename_list, hitems, h0]
theorem loadAll_rename {ρ : Renaming} (ds : List Datum) {n n' : Nat}
    (h : ∀ k < Datum.listsAll ds, ρ.identity (n + k) = n' + k) :
    (loadAll ds n').1 = (loadAll ds n).1.map (rename ρ) := by
  cases ds with
  | nil => rfl
  | cons d ds =>
    rw [Datum.listsAll] at h
    have hd : (load d n').1 = (load d n).1.rename ρ := by
      apply load_rename
      intro k hk
      exact h k (by omega)
    -- the rest is loaded from the identity that follows those of the first datum
    have hds : (loadAll ds (load d n').2).1 = (loadAll ds (load d n).2).1.map (rename ρ) := by
      apply loadAll_rename
      intro k hk
      rw [load_next, load_next, Nat.add_assoc, Nat.add_assoc]
      exact h _ (by omega)
    change (load d n').1 :: (loadAll ds (load d n').2).1 = _
    rw [hd, hds]
    rfl
end

end Value

section
variable (ρ : Renaming) (old : List Value × List Value)

theorem Action.parallels_load (d : Datum) :
    Parallels ρ old (Value.rename ρ) (load d) (load d) := by
  intro a b hab
  rw [perform_load, perform_load]
  refine ⟨⟨hab.identities d.lists, hab.numbers, hab.draws⟩, ?_⟩
  exact congrArg Except.ok (Value.load_rename d fun k _ => hab.identity k)

theorem parallels_evalForms (depth : Nat) (s : ScopeId) (last : Value) (ds : List Datum) :
    Parallels ρ old (Value.rename ρ) (evalForms depth s last ds)
      (evalForms depth (ρ.scope s) (last.rename ρ) ds) := by
  induction ds generalizing last with
  | nil => exact Parallels.pure rfl
  | cons d ds ih =>
    refine (Action.parallels_load ρ old d).bind fun e => ?_
    exact (Task.perform_parallels ρ old depth (.eval e s)).bind fun v => ih v

theorem Program.parallels_eval (p : Program) (depth : Nat) (s : ScopeId) :
    Parallels ρ old (Value.rename ρ) (p.eval depth s) (p.eval depth (ρ.scope s)) := by
  refine (parallels_evalForms ρ old depth s .unspecified p.forms).bind fun v => ?_
  cases p.fault? with
  | none => exact Parallels.pure rfl
  | some fault => exact Parallels.throw rfl

end

namespace Renaming

/-- The renaming changes no scope, and no identity that the store has handed out. -/
structure Fixes (ρ : Renaming) (st : Store) : Prop where
  identity : ∀ i < st.nextIdentity, ρ.identity i = i
  scope : ∀ s, ρ.scope s = s

/-- The outcomes of two runs from `st` are the same up to the identities of what was made since: the
results correspond, and so do the values shown and what every scope binds. -/
structure Relates (ρ : Renaming) (st : Store) (x y : Except Error Value × Store) : Prop
    extends ρ.Fixes st where
  result : y.1 = x.1.map (Value.rename ρ)
  shown : ∃ vs, x.2.shown.toList = st.shown.toList ++ vs ∧
    y.2.shown.toList = st.shown.toList ++ vs.map (Value.rename ρ)
  get : ∀ s name, y.2.get? s name = (x.2.get? s name).map (Value.rename ρ)

variable {ρ : Renaming} {st : Store}

theorem Fixes.rename (h : ρ.Fixes st) {v : Value} (hv : v.In st) : v.rename ρ = v := by
  apply Value.rename_of_within
  exact hv.mono h.identity fun s _ => h.scope s

/-- A closed store stays in step with itself when identities are skipped on either side. -/
theorem Fixes.inStep (h : ρ.Fixes st) (hst : st.Closed) {m n : Nat}
    (hn : ∀ k, ρ.identity (m + k) = n + k) :
    Store.InStep ρ (st.shown.toList, st.shown.toList) { st with nextIdentity := m }
      { st with nextIdentity := n } where
  identity := hn
  scope k := h.scope _
  present s hs := by
    rw [h.scope]
    exact hs
  get s name := by
    rw [h.scope]
    change st.get? s name = (st.get? s name).map _
    cases hv : st.get? s name with
    | none => rfl
    | some v => exact congrArg some (h.rename (hst s name v hv)).symm
  shown := ⟨[], by simp⟩
  numbers := rfl
  draws := rfl

/-- Runs that end in step have outcomes that are the same up to identities. -/
theorem Relates.of_inStep {x y : Except Error Value × Store} (hρ : ρ.Fixes st)
    (hstep : x.2.InStep ρ (st.shown.toList, st.shown.toList) y.2)
    (hresult : y.1 = x.1.map (Value.rename ρ)) : ρ.Relates st x y := by
  refine ⟨hρ, hresult, hstep.shown, fun s name => ?_⟩
  have hget := hstep.get s name
  rwa [hρ.scope] at hget

theorem Relates.trans {σ : Renaming} {x y z : Except Error Value × Store} (hxy : ρ.Relates st x y)
    (hyz : σ.Relates st y z) : (ρ.trans σ).Relates st x z where
  identity i hi := (congrArg σ.identity (hxy.identity i hi)).trans (hyz.identity i hi)
  scope s := (congrArg σ.scope (hxy.scope s)).trans (hyz.scope s)
  result := by
    rw [hyz.result, hxy.result, Value.rename_trans]
    cases x.1 <;> rfl
  shown := by
    obtain ⟨vs, hx, hy⟩ := hxy.shown
    obtain ⟨ws, hy', hz⟩ := hyz.shown
    obtain rfl : vs.map (Value.rename ρ) = ws := List.append_cancel_left (hy.symm.trans hy')
    refine ⟨vs, hx, ?_⟩
    rw [hz, Value.rename_trans, List.map_map]
  get s name := by
    rw [hyz.get, hxy.get, Value.rename_trans, Option.map_map]

/-- Leaves the scopes and the identities below a bound alone, and moves the other identities up. -/
theorem shift_fixes (st : Store) (n : Nat) : (shift st.nextIdentity 0 n 0).Fixes st where
  identity _ hi := shift_identity_below hi
  scope _ := rfl

end Renaming

namespace Action

/-- The two computations come to the same outcome from the store, or neither comes to an end. Outcomes
are the same up to the identities of what was made. -/
def SameOutcome (st : Store) (a b : Nat → Action Value) : Prop :=
  (∀ x, Ends a st x → ∃ y, Ends b st y ∧ ∃ ρ : Renaming, ρ.Relates st x y) ∧
    ∀ y, Ends b st y → ∃ x, Ends a st x ∧ ∃ ρ : Renaming, ρ.Relates st x y

variable {ρ : Renaming} {st st' : Store} {a b b' : Nat → Action Value}

theorem sameOutcome_of_parallels (hρ : ρ.Fixes st)
    (hst : st.InStep ρ (st.shown.toList, st.shown.toList) st')
    (hab : ∀ depth, Parallels ρ (st.shown.toList, st.shown.toList) (Value.rename ρ) (a depth) (b depth))
    (hb : ∀ out, Ends b st' out ↔ Ends b' st out) : SameOutcome st a b' := by
  have hrel (depth : Nat) : ρ.Relates st ((a depth).perform st) ((b depth).perform st') := by
    obtain ⟨hstep, hresult⟩ := hab depth st st' hst
    exact .of_inStep hρ hstep hresult
  -- a renaming does not touch errors, so both nest too deep or neither does
  have hdeep (depth : Nat) : ((b depth).perform st').1 = .error .tooDeep ↔
      ((a depth).perform st).1 = .error .tooDeep := by
    rw [(hrel depth).result]
    cases ((a depth).perform st).1 <;> simp [Except.map]
  constructor
  · rintro x ⟨hdone, depth, rfl⟩
    have hends : Ends b st' ((b depth).perform st') := ⟨mt (hdeep depth).mp hdone, depth, rfl⟩
    exact ⟨_, (hb _).mp hends, ρ, hrel depth⟩
  · intro y hy
    obtain ⟨hdone, depth, rfl⟩ := (hb y).mpr hy
    exact ⟨_, ⟨mt (hdeep depth).mpr hdone, depth, rfl⟩, ρ, hrel depth⟩

end Action

end SmallScheme
