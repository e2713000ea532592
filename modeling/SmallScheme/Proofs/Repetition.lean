import Mathlib.Data.Set.Function
import Mathlib.Order.Interval.Set.Defs
import SmallScheme.Proofs.Isolation
import SmallScheme.Proofs.Reachable
import SmallScheme.Proofs.Simulation

/-! Procedures have no hidden state: applying a procedure again repeats what it did.

The first application leaves every scope that was there as it was, so the store after it is the
store before it with some identities and scopes used up. Skipping those is a renaming, and evaluation
commutes with it. -/
namespace SmallScheme

namespace Renaming

/-- Keeps the identities and scopes below given bounds and moves all others up. -/
def shift (ids scopes moreIds moreScopes : Nat) : Renaming where
  identity i := if i < ids then i else i + moreIds
  scope s := if s.index < scopes then s else ⟨s.index + moreScopes⟩
  identity_injective := by
    intro i j h
    dsimp only at h
    split at h <;> split at h <;> omega
  scope_injective := by
    intro s t h
    refine ScopeId.index_injective ?_
    have hi := congrArg ScopeId.index h
    simp only [apply_ite ScopeId.index] at hi
    split at hi <;> split at hi <;> omega

variable {ids scopes moreIds moreScopes : Nat}

theorem shift_identity_below {i : Nat} (h : i < ids) :
    (shift ids scopes moreIds moreScopes).identity i = i := if_pos h

theorem shift_identity_above (k : Nat) :
    (shift ids scopes moreIds moreScopes).identity (ids + k) = ids + k + moreIds :=
  if_neg (Nat.not_lt.mpr (Nat.le_add_right ids k))

theorem shift_scope_below {s : ScopeId} (h : s.index < scopes) :
    (shift ids scopes moreIds moreScopes).scope s = s := if_pos h

theorem shift_scope_above (k : Nat) :
    (shift ids scopes moreIds moreScopes).scope ⟨scopes + k⟩ = ⟨scopes + k + moreScopes⟩ :=
  if_neg (Nat.not_lt.mpr (Nat.le_add_right scopes k))

end Renaming

/-- The renaming fixes what `st` has and takes what was made between `st` and `first` one to one onto
what was made between `first` and `second`. -/
structure Renaming.Carries (ρ : Renaming) (st first second : Store) : Prop where
  identity_fixed : ∀ i, i < st.nextIdentity → ρ.identity i = i
  scope_fixed : ∀ s, s.index < st.scopes.size → ρ.scope s = s
  identities : Set.BijOn ρ.identity (Set.Ico st.nextIdentity first.nextIdentity)
    (Set.Ico first.nextIdentity second.nextIdentity)
  scopes : Set.BijOn ρ.scope {s | st.scopes.size ≤ s.index ∧ s.index < first.scopes.size}
    {s | first.scopes.size ≤ s.index ∧ s.index < second.scopes.size}

namespace Store
variable {st first : Store}

/-- The renaming that skips what the store has got since. -/
def skip (st first : Store) : Renaming :=
  .shift st.nextIdentity st.scopes.size (first.nextIdentity - st.nextIdentity)
    (first.scopes.size - st.scopes.size)

theorem rename_skip {v : Value} (hv : v.In st) : v.rename (st.skip first) = v := by
  refine Value.rename_of_within (hv.mono ?_ ?_)
  · intro i hi
    exact Renaming.shift_identity_below hi
  · intro s hs
    exact Renaming.shift_scope_below hs

/-- A closed store that has only grown matches what it has become. -/
theorem Closed.matches_skip (h : st.Closed) (hg : st.Grows first)
    (hk : st.Keeps (fun s => s.index < st.scopes.size) first) :
    Matches (st.skip first) (st.shown.toList, first.shown.toList) st first where
  identity k := by
    have := hg.identities
    rw [skip, Renaming.shift_identity_above]
    omega
  scope k := by
    have := hg.scopes
    rw [skip, Renaming.shift_scope_above]
    refine congrArg ScopeId.mk ?_
    omega
  present s hs := by
    have := hg.scopes
    rw [skip, Renaming.shift_scope_below hs]
    omega
  get s name := by
    by_cases hs : s.index < st.scopes.size
    · have hsame : first.get? s name = st.get? s name := by
        unfold get? bindings
        rw [hk s hs]
      rw [skip, Renaming.shift_scope_below hs, hsame]
      cases hv : st.get? s name with
      | none => rfl
      | some v => exact congrArg some (rename_skip (h s name v hv)).symm
    · -- no store has the scopes that the renaming moves
      obtain ⟨k, hk⟩ := Nat.le.dest (Nat.not_lt.mp hs)
      have hs' : s = ⟨st.scopes.size + k⟩ := ScopeId.index_injective hk.symm
      have hscopes := hg.scopes
      rw [get?_eq_none (Nat.not_lt.mp hs), hs', skip, Renaming.shift_scope_above, get?_eq_none]
      · rfl
      · dsimp only
        omega
  shown := ⟨[], by simp⟩

/-- What is made from matching stores corresponds. -/
theorem Matches.carries {second : Store} {old : List Value × List Value} (hg : st.Grows first)
    (h : Matches (st.skip first) old first second) :
    (st.skip first).Carries st first second where
  identity_fixed i hi := Renaming.shift_identity_below hi
  scope_fixed s hs := Renaming.shift_scope_below hs
  identities := by
    have hle := hg.identities
    obtain ⟨n, hn⟩ := Nat.le.dest hle
    -- the stores match after both, so the second run made as many as the first
    have hsecond : second.nextIdentity = first.nextIdentity + n := by
      have h0 := h.identity 0
      rw [Nat.add_zero, Nat.add_zero, ← hn, skip, Renaming.shift_identity_above] at h0
      omega
    refine ⟨?_, (st.skip first).identity_injective.injOn, ?_⟩
    · rintro i ⟨hi, hlt⟩
      obtain ⟨k, rfl⟩ := Nat.le.dest hi
      rw [skip, Renaming.shift_identity_above, Set.mem_Ico]
      omega
    · rintro j ⟨hj, hlt⟩
      refine ⟨st.nextIdentity + (j - first.nextIdentity), ⟨Nat.le_add_right _ _, by omega⟩, ?_⟩
      rw [skip, Renaming.shift_identity_above]
      omega
  scopes := by
    have hle := hg.scopes
    obtain ⟨n, hn⟩ := Nat.le.dest hle
    have hsecond : second.scopes.size = first.scopes.size + n := by
      have h0 := congrArg ScopeId.index (h.scope 0)
      rw [Nat.add_zero, Nat.add_zero, ← hn, skip, Renaming.shift_scope_above] at h0
      dsimp only at h0
      omega
    refine ⟨?_, (st.skip first).scope_injective.injOn, ?_⟩
    · rintro ⟨i⟩ ⟨hi, hlt⟩
      dsimp only at hi hlt
      obtain ⟨k, rfl⟩ := Nat.le.dest hi
      rw [skip, Renaming.shift_scope_above, Set.mem_ofPred_eq]
      dsimp only
      omega
    · rintro ⟨j⟩ ⟨hj, hlt⟩
      dsimp only at hj hlt
      refine ⟨⟨st.scopes.size + (j - first.scopes.size)⟩, ⟨Nat.le_add_right _ _, ?_⟩, ?_⟩
      · dsimp only
        omega
      · rw [skip, Renaming.shift_scope_above]
        refine congrArg ScopeId.mk ?_
        omega

end Store

/-- Procedures have no hidden state. From a reachable store, apply a procedure twice in a row to the
same arguments. If the first application finishes and draws no random number then the second does
too, shows the same texts and has the same outcome, up to a one-to-one renaming of the identities
and scopes made by the two. Identity comparison does not tell them apart. -/
theorem apply_repeats (depth : Nat) {st first second : Store} {p : Value} {args : List Value}
    {r r' : Except Error Value} (hst : st.Reachable) (hp : p.In st) (hargs : ∀ v ∈ args, v.In st)
    (hfirst : (apply depth p args).perform st = (r, first))
    (hsecond : (apply depth p args).perform first = (r', second))
    (hdone : r ≠ .error .tooDeep) (hdraw : first.draws = st.draws) :
    ∃ ρ : Renaming, ρ.Carries st first second ∧ r' = r.map (Value.rename ρ) ∧
      second.draws = first.draws ∧
      (∃ vs : List Value, first.shown.toList = st.shown.toList ++ vs ∧
        second.shown.toList = first.shown.toList ++ vs.map (Value.rename ρ) ∧
        (vs.map (Value.rename ρ)).map Value.displayText = vs.map Value.displayText) ∧
      ∀ v w : Value, (v.rename ρ).isIdentical (w.rename ρ) = v.isIdentical w := by
  have hkeep : st.Keeps (fun s => s.index < st.scopes.size) first := by
    have h := apply_keeps depth p args st
    rwa [hfirst] at h
  change ((Task.apply p args).perform depth).perform st = _ at hfirst
  change ((Task.apply p args).perform depth).perform first = _ at hsecond
  have hgrow : st.Grows first := by
    have h := (hst.perform depth (t := .apply p args) ⟨hp, hargs⟩).2.1
    rwa [hfirst] at h
  -- the second application is the first with its task renamed, and renaming leaves the task alone
  have htask : (Task.apply p args).rename (st.skip first) = .apply p args := by
    rw [Task.rename, Store.rename_skip hp,
      Value.map_rename_eq fun v hv => Store.rename_skip (hargs v hv)]
  have hsim := (Simulation.sim_perform (st.skip first) (st.shown.toList, first.shown.toList)
    (Nat.le_refl depth) (.apply p args)).course st first (hst.closed.matches_skip hgrow hkeep)
  rw [htask, hfirst, hsecond] at hsim
  obtain ⟨hmatch, hdraws, hresult⟩ := hsim hdraw hdone
  obtain ⟨vs, hvs, hvs'⟩ := hmatch.shown
  refine ⟨st.skip first, hmatch.carries hgrow, hresult, hdraws, ⟨vs, hvs, hvs', ?_⟩, ?_⟩
  · rw [List.map_map]
    exact List.map_congr_left fun v _ => Value.displayText_rename (st.skip first) v
  · exact Value.isIdentical_rename (st.skip first)

set_option maxRecDepth 20000 in
/-- A procedure that shows a text through its argument and makes a procedure. -/
theorem apply_repeats_closure :
    let st : Store := { (Session.start { depth := 0 }).store with nextIdentity := 5 }
    let body := Value.list 1 [.symbol "begin", .list 2 [.symbol "show", .symbol "'a'"],
      .list 3 [.symbol "lambda", .list 4 [], .symbol "show"]]
    let run := (apply 5 (.closure 0 ["show"] body ⟨0⟩) [.builtin .display]).perform
    (run st).1 = .ok (.closure 5 [] (.symbol "show") ⟨1⟩) ∧
      ∃ ρ : Renaming, ρ.Carries st (run st).2 (run (run st).2).2 ∧
        (run (run st).2).1 = .ok (.closure (ρ.identity 5) [] (.symbol "show") (ρ.scope ⟨1⟩)) := by
  intro st body run
  have hst : st.Reachable := (Store.Reachable.start { depth := 0 }).identities 5
  have hp : (Value.closure 0 ["show"] body ⟨0⟩).In st := by
    unfold Value.In
    simp only [Value.Within, Value.WithinAll, body]
    decide
  have hargs : ∀ v ∈ [Value.builtin .display], v.In st := List.forall_mem_singleton.mpr trivial
  have hresult : (run st).1 = .ok (.closure 5 [] (.symbol "show") ⟨1⟩) := by rfl
  have hdone : (run st).1 ≠ .error .tooDeep := by
    rw [hresult]
    intro h
    cases h
  have hdraw : (run st).2.draws = st.draws := by rfl
  obtain ⟨ρ, hcarries, hrepeat, _⟩ :=
    apply_repeats 5 hst hp hargs (Prod.mk.eta (p := run st)).symm
      (Prod.mk.eta (p := run (run st).2)).symm hdone hdraw
  refine ⟨hresult, ρ, hcarries, ?_⟩
  rw [hrepeat, hresult]
  rfl

end SmallScheme
