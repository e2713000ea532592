import SmallScheme.Session
import SmallScheme.Proofs.Discipline

/-! Reachable stores: those that sessions come to, between programs and inside of them.

Every value bound in a reachable store has only identities and scopes of that store, and evaluation
from a reachable store leads to a reachable one. -/
namespace SmallScheme

/-- The value has only identities and scopes of the store. -/
def Value.In (st : Store) (v : Value) : Prop :=
  v.Within (· < st.nextIdentity) (·.index < st.scopes.size)

namespace Store

/-- Every value bound in the store is a value of the store. -/
def Closed (st : Store) : Prop := ∀ s name v, st.get? s name = some v → v.In st

/-- A store that has grown: it has the identities and scopes of the earlier one. -/
structure Grows (st st' : Store) : Prop where
  identities : st.nextIdentity ≤ st'.nextIdentity
  scopes : st.scopes.size ≤ st'.scopes.size

theorem Grows.value_in {st st' : Store} (h : st.Grows st') {v : Value} (hv : v.In st) : v.In st' := by
  refine Value.Within.mono hv ?_ ?_
  · intro i hi
    exact Nat.lt_of_lt_of_le hi h.identities
  · intro s hs
    exact Nat.lt_of_lt_of_le hs h.scopes

end Store

theorem Bindings.mem_overlay {b : Bindings} {more : List (String × Value)} {name : String} {v : Value}
    (h : (b.overlay more)[name]? = some v) : (∃ p ∈ more, p.2 = v) ∨ b[name]? = some v := by
  rw [getElem?_overlay] at h
  cases hgiven : valueFor? name more with
  | none =>
    rw [hgiven] at h
    exact Or.inr h
  | some w =>
    rw [hgiven] at h
    cases h
    obtain ⟨p, hp, hv⟩ := Option.map_eq_some_iff.mp hgiven
    exact Or.inl ⟨p, List.mem_of_mem_filter (List.mem_of_getLast? hp), hv⟩

namespace Store

theorem extend_grows (st : Store) (s : ScopeId) (more : List (String × Value)) :
    st.Grows (st.extend s more).2 := by
  refine ⟨Nat.le_refl _, ?_⟩
  change st.scopes.size ≤ (st.scopes.push _).size
  rw [Array.size_push]
  exact Nat.le_succ _

theorem define_grows (st : Store) (s : ScopeId) (key : String) (v : Value) :
    st.Grows (st.define s key v) := by
  refine ⟨Nat.le_refl _, ?_⟩
  exact Nat.le_of_eq Array.size_modify.symm

/-- What is bound after a scope was copied is one of the values given for the copy, or was bound
before. -/
theorem get?_extend_cases {st : Store} {s t : ScopeId} {more : List (String × Value)}
    {name : String} {v : Value} (h : (st.extend s more).2.get? t name = some v) :
    (∃ p ∈ more, p.2 = v) ∨ ∃ t', st.get? t' name = some v := by
  rw [get?_extend] at h
  split at h
  · exact (Bindings.mem_overlay h).imp_right fun hb => ⟨s, hb⟩
  · exact Or.inr ⟨t, h⟩

theorem get?_define_cases {st : Store} {s t : ScopeId} {key name : String} {v w : Value}
    (h : (st.define s key v).get? t name = some w) : v = w ∨ st.get? t name = some w := by
  rw [get?_define] at h
  split at h
  · exact Or.inl (Option.some.inj h)
  · exact Or.inr h

theorem Closed.extend {st : Store} (h : st.Closed) (s : ScopeId) {more : List (String × Value)}
    (hm : ∀ p ∈ more, p.2.In st) : (st.extend s more).2.Closed := by
  intro t name v hg
  refine (extend_grows st s more).value_in ?_
  obtain ⟨p, hp, rfl⟩ | ⟨t', hb⟩ := get?_extend_cases hg
  · exact hm p hp
  · exact h t' name v hb

theorem Closed.define {st : Store} (h : st.Closed) (s : ScopeId) (key : String) {v : Value}
    (hv : v.In st) : (st.define s key v).Closed := by
  intro t name w hg
  refine (define_grows st s key v).value_in ?_
  obtain rfl | hb := get?_define_cases hg
  · exact hv
  · exact h t name w hb

/-- A store comes from the start of a session by the primitive actions, each on values that the
store has at the time. -/
inductive Reachable : Store → Prop where
  | start (setup : Setup) : Reachable (Session.start setup).store
  | identities {st : Store} (n : Nat) : Reachable st →
      Reachable { st with nextIdentity := st.nextIdentity + n }
  | extend {st : Store} {s : ScopeId} {more : List (String × Value)} : Reachable st →
      s.index < st.scopes.size → (∀ p ∈ more, p.2.In st) → Reachable (st.extend s more).2
  | define {st : Store} {s : ScopeId} (name : String) {v : Value} : Reachable st →
      s.index < st.scopes.size → v.In st → Reachable (st.define s name v)
  | display {st : Store} {v : Value} : Reachable st → v.In st →
      Reachable { st with shown := st.shown.push v }
  | clear {st : Store} : Reachable st → Reachable { st with shown := #[] }
  | draw {st : Store} : Reachable st → Reachable { st with draws := st.draws + 1 }

end Store

theorem globalBindings_within {name : String} {v : Value} {ids : Nat → Prop} {scopes : ScopeId → Prop}
    (h : globalBindings[name]? = some v) : v.Within ids scopes := by
  rcases Bindings.mem_overlay h with ⟨p, hp, rfl⟩ | hempty
  · -- procedures, numbers and nil have neither identities nor scopes
    simp only [List.mem_append, List.mem_map, List.mem_singleton] at hp
    rcases hp with (⟨op, _, rfl⟩ | ⟨d, _, rfl⟩) | rfl
    · trivial
    · trivial
    · trivial
  · rw [Std.TreeMap.getElem?_emptyc] at hempty
    cases hempty

theorem Session.start_closed (setup : Setup) : (Session.start setup).store.Closed := by
  intro s name v hg
  change ((#[].push globalBindings)[s.index]?.getD ∅)[name]? = some v at hg
  by_cases hs : s.index = 0
  · rw [hs] at hg
    exact globalBindings_within hg
  · -- no other scope is there at the start
    have hnone : (#[].push globalBindings)[s.index]? = none := by
      rw [Array.getElem?_eq_none_iff]
      change 1 ≤ s.index
      omega
    rw [hnone] at hg
    change (∅ : Bindings)[name]? = some v at hg
    rw [Std.TreeMap.getElem?_emptyc] at hg
    cases hg

namespace Store

theorem Reachable.closed {st : Store} (h : st.Reachable) : st.Closed := by
  induction h with
  | start setup => exact Session.start_closed setup
  | @identities st n _ ih =>
    have hgrow : st.Grows { st with nextIdentity := st.nextIdentity + n } :=
      ⟨Nat.le_add_right _ _, Nat.le_refl _⟩
    exact fun s name v hg => hgrow.value_in (ih s name v hg)
  | extend _ _ hm ih => exact ih.extend _ hm
  | define name _ _ hv ih => exact ih.define _ name hv
  | display _ _ ih => exact ih
  | clear _ ih => exact ih
  | draw _ ih => exact ih

/-- Every value shown is a value of the store. -/
theorem Reachable.shown_in {st : Store} (h : st.Reachable) : ∀ v ∈ st.shown, v.In st := by
  induction h with
  | start setup => exact fun v hv => absurd hv (Array.not_mem_empty v)
  | @identities st n _ ih =>
    have hgrow : st.Grows { st with nextIdentity := st.nextIdentity + n } :=
      ⟨Nat.le_add_right _ _, Nat.le_refl _⟩
    exact fun v hv => hgrow.value_in (ih v hv)
  | extend _ _ _ ih => exact fun v hv => (extend_grows _ _ _).value_in (ih v hv)
  | define name _ _ _ ih => exact fun v hv => (define_grows _ _ name _).value_in (ih v hv)
  | display _ hw ih =>
    intro v hv
    rcases Array.mem_push.mp hv with hold | rfl
    · exact ih v hold
    · exact hw
  | clear _ _ => exact fun v hv => absurd hv (Array.not_mem_empty v)
  | draw _ ih => exact ih

end Store

/-- Stores only grow, whatever values and scopes there are. -/
def growth : Discipline where
  valid _ := True
  step := Store.Grows
  known _ _ := True
  readable _ _ := True
  writable _ _ := True
  step_refl _ := ⟨Nat.le_refl _, Nat.le_refl _⟩
  step_trans hab hbc :=
    ⟨Nat.le_trans hab.identities hbc.identities, Nat.le_trans hab.scopes hbc.scopes⟩
  known_mono _ _ h := h
  readable_mono _ _ h := h
  writable_mono _ _ h := h
  readable_of_writable h := h
  get_within _ _ _ := Value.within_true _
  identity _ := ⟨trivial, ⟨Nat.le_succ _, Nat.le_refl _⟩, trivial⟩
  extend _ _ _ := ⟨trivial, Store.extend_grows _ _ _, trivial⟩
  define _ _ _ := ⟨trivial, Store.define_grows _ _ _ _⟩
  display _ _ := ⟨trivial, ⟨Nat.le_refl _, Nat.le_refl _⟩⟩
  draw _ := ⟨trivial, ⟨Nat.le_refl _, Nat.le_refl _⟩⟩

/-- Values have identities and scopes of the store, and stores are reachable and only grow. -/
def reachability : Discipline where
  valid := Store.Reachable
  step := Store.Grows
  known st i := i < st.nextIdentity
  readable st s := s.index < st.scopes.size
  writable st s := s.index < st.scopes.size
  step_refl := growth.step_refl
  step_trans := growth.step_trans
  known_mono h _ hi := Nat.lt_of_lt_of_le hi h.identities
  readable_mono h _ hs := Nat.lt_of_lt_of_le hs h.scopes
  writable_mono h _ hs := Nat.lt_of_lt_of_le hs h.scopes
  readable_of_writable h := h
  get_within hv _ hg := hv.closed _ _ _ hg
  identity hv := ⟨hv.identities 1, ⟨Nat.le_succ _, Nat.le_refl _⟩, Nat.lt_succ_self _⟩
  extend hv hs hm := by
    refine ⟨hv.extend hs hm, Store.extend_grows _ _ _, ?_⟩
    change _ < (Array.push _ _).size
    rw [Array.size_push]
    exact Nat.lt_succ_self _
  define hv hs hw := ⟨hv.define _ hs hw, Store.define_grows _ _ _ _⟩
  display hv hw := ⟨hv.display hw, ⟨Nat.le_refl _, Nat.le_refl _⟩⟩
  draw hv := ⟨hv.draw, ⟨Nat.le_refl _, Nat.le_refl _⟩⟩

/-- What evaluation does from a reachable store leads to a reachable one, and its value is a value
of that store. -/
theorem Store.Reachable.perform {st : Store} (h : st.Reachable) (depth : Nat) {t : Task}
    (ht : reachability.Allows st t) :
    ((t.perform depth).perform st).2.Reachable ∧ st.Grows ((t.perform depth).perform st).2 ∧
      ∀ v, ((t.perform depth).perform st).1 = .ok v → v.In ((t.perform depth).perform st).2 :=
  reachability.perform_obeys depth st t ht h

namespace Value

mutual
/-- The identities of a loaded value are those handed out while it was loaded. -/
theorem load_within (scopes : ScopeId → Prop) (d : Datum) (n : Nat) :
    n ≤ (load d n).2 ∧ (load d n).1.Within (· < (load d n).2) scopes := by
  cases d with
  | number x => exact ⟨Nat.le_refl n, trivial⟩
  | bool b => exact ⟨Nat.le_refl n, trivial⟩
  | symbol name => exact ⟨Nat.le_refl n, trivial⟩
  | list items =>
    obtain ⟨hle, hitems⟩ := loadAll_within scopes items (n + 1)
    rw [load]
    exact ⟨Nat.le_of_succ_le hle, within_list.mpr ⟨hle, hitems⟩⟩
theorem loadAll_within (scopes : ScopeId → Prop) (ds : List Datum) (n : Nat) :
    n ≤ (loadAll ds n).2 ∧ ∀ v ∈ (loadAll ds n).1, v.Within (· < (loadAll ds n).2) scopes := by
  cases ds with
  | nil => exact ⟨Nat.le_refl n, fun v hv => absurd hv List.not_mem_nil⟩
  | cons d ds =>
    obtain ⟨h1, hd⟩ := load_within scopes d n
    obtain ⟨h2, hds⟩ := loadAll_within scopes ds (load d n).2
    rw [loadAll]
    refine ⟨Nat.le_trans h1 h2, List.forall_mem_cons.mpr ⟨?_, hds⟩⟩
    exact hd.mono (fun i hi => Nat.lt_of_lt_of_le hi h2) fun _ hs => hs
end

end Value

theorem obeys_load (st : Store) (d : Datum) :
    reachability.Obeys st (Action.load d) reachability.Admits := by
  intro hv
  obtain ⟨_, hin⟩ := Value.load_within (·.index < st.scopes.size) d st.nextIdentity
  rw [Value.load_next] at hin
  rw [Action.perform_load]
  refine ⟨hv.identities d.lists, ⟨Nat.le_add_right _ _, Nat.le_refl _⟩, ?_⟩
  intro v hr
  cases hr
  exact hin

/-- A program keeps to every discipline that loading forms keeps to. -/
theorem Discipline.obeys_program {D : Discipline}
    (hload : ∀ st d, D.Obeys st (Action.load d) D.Admits) (depth : Nat) {st : Store} {s : ScopeId}
    (p : Program) (hs : D.writable st s) : D.Obeys st (p.eval depth s) D.Admits := by
  refine Discipline.obeys_iff.mpr fun hv => Regime.obeys_program (R := D.regime) ?_ depth p hs
  exact fun w d => Discipline.obeys_iff.mp (hload w.1 d) w.2

namespace Session

/-- A session whose store is reachable and has its global scope. -/
structure Sound (ses : Session) : Prop where
  store : ses.store.Reachable
  global : ses.global.index < ses.store.scopes.size

theorem start_sound (setup : Setup) : (start setup).Sound := ⟨.start setup, Nat.zero_lt_one⟩

end Session

end SmallScheme
