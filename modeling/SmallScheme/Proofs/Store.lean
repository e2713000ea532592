import SmallScheme.Store

/-! What the operations of a store do to its bindings, and what each primitive action does to the
store that it is performed on. -/
namespace SmallScheme

theorem ScopeId.index_injective : Function.Injective ScopeId.index := by
  rintro ⟨i⟩ ⟨j⟩ h
  exact congrArg ScopeId.mk h

theorem Bindings.getElem?_insert (b : Bindings) (key : String) (v : Value) (name : String) :
    (b.insert key v)[name]? = if key = name then some v else b[name]? := by
  rw [Std.TreeMap.getElem?_insert]
  simp only [Std.compare_eq_iff_eq]

/-- The value that bindings give a name: of several the last counts. -/
def Bindings.valueFor? (name : String) (more : List (String × Value)) : Option Value :=
  (more.filter (·.1 = name)).getLast?.map Prod.snd

theorem Bindings.valueFor?_cons (name : String) (p : String × Value) (more : List (String × Value)) :
    valueFor? name (p :: more) =
      (valueFor? name more).or (if p.1 = name then some p.2 else none) := by
  unfold valueFor?
  rw [List.filter_cons]
  split
  · next hp =>
    rw [List.getLast?_cons, if_pos (of_decide_eq_true hp)]
    cases (more.filter (·.1 = name)).getLast? <;> rfl
  · next hp =>
    rw [if_neg fun h => hp (decide_eq_true h), Option.or_none]

/-- What bindings do not give a name stays as it was. -/
theorem Bindings.getElem?_overlay (b : Bindings) (more : List (String × Value)) (name : String) :
    (b.overlay more)[name]? = (valueFor? name more).or b[name]? := by
  induction more generalizing b with
  | nil => rfl
  | cons p more ih =>
    change (Bindings.overlay (b.insert p.1 p.2) more)[name]? = _
    rw [ih, getElem?_insert, valueFor?_cons, Option.or_assoc]
    split
    · rfl
    · rfl

theorem Bindings.valueFor?_of_mem {name : String} {v : Value} {more : List (String × Value)}
    (hnodup : (more.map Prod.fst).Nodup) (h : (name, v) ∈ more) : valueFor? name more = some v := by
  induction more with
  | nil => cases h
  | cons p more ih =>
    rw [List.map_cons, List.nodup_cons] at hnodup
    rw [valueFor?_cons]
    rcases List.mem_cons.mp h with rfl | hmem
    · -- no later binding is for the same name
      have hnone : valueFor? name more = none := by
        have hfilter : more.filter (·.1 = name) = [] := by
          apply List.filter_eq_nil_iff.mpr
          intro q hq hname
          have hmem : q.1 ∈ more.map Prod.fst := List.mem_map_of_mem hq
          rw [of_decide_eq_true hname] at hmem
          exact hnodup.1 hmem
        rw [valueFor?, hfilter]
        rfl
      rw [hnone, if_pos rfl]
      rfl
    · rw [ih hnodup.2 hmem]
      rfl

namespace Store

theorem contains_eq (st : Store) (s : ScopeId) (name : String) :
    st.contains s name = (st.get? s name).isSome := by
  unfold contains get?
  rw [Std.TreeMap.contains_eq_isSome_getElem?]

theorem mem_names (st : Store) (s : ScopeId) (name : String) :
    name ∈ st.names s ↔ (st.get? s name).isSome = true := by
  rw [← contains_eq]
  exact Std.TreeMap.mem_keys.trans Std.TreeMap.mem_iff_contains

/-- Names are in order, and each of them is there once. -/
theorem names_pairwise (st : Store) (s : ScopeId) : (st.names s).Pairwise (· < ·) := by
  refine Std.TreeMap.ordered_keys.imp fun h => ?_
  exact compareOfLessAndEq_eq_lt.mp h

theorem get?_eq_none {st : Store} {s : ScopeId} (h : st.scopes.size ≤ s.index) (name : String) :
    st.get? s name = none := by
  unfold get? bindings
  rw [Array.getElem?_eq_none h]
  exact Std.TreeMap.getElem?_emptyc

/-- A new scope has the bindings it was made with, and no other scope changes. -/
theorem get?_newScope (st : Store) (b : Bindings) (t : ScopeId) (name : String) :
    (st.newScope b).2.get? t name =
      if t.index = st.scopes.size then b[name]? else st.get? t name := by
  unfold get? bindings
  change (((st.scopes.push _)[t.index]?).getD ∅)[name]? = _
  rw [Array.getElem?_push]
  split <;> rfl

theorem get?_extend (st : Store) (s : ScopeId) (more : List (String × Value)) (t : ScopeId)
    (name : String) :
    (st.extend s more).2.get? t name =
      if t.index = st.scopes.size then ((st.bindings s).overlay more)[name]? else st.get? t name :=
  st.get?_newScope _ t name

theorem get?_define (st : Store) (s : ScopeId) (key : String) (v : Value) (t : ScopeId)
    (name : String) :
    (st.define s key v).get? t name =
      if s = t ∧ t.index < st.scopes.size ∧ key = name then some v else st.get? t name := by
  unfold get? bindings
  change (((st.scopes.modify s.index _)[t.index]?).getD ∅)[name]? = _
  rw [Array.getElem?_modify]
  by_cases hst : s = t
  · subst hst
    rw [if_pos rfl]
    by_cases hlt : s.index < st.scopes.size
    · rw [Array.getElem?_eq_getElem hlt]
      simp only [Option.map_some, Option.getD_some, Bindings.getElem?_insert, hlt, true_and]
    · simp [hlt]
  · have hne : s.index ≠ t.index := fun he => hst (ScopeId.index_injective he)
    rw [if_neg hne, if_neg fun h => hst h.1]

theorem size_define (st : Store) (s : ScopeId) (name : String) (v : Value) :
    (st.define s name v).scopes.size = st.scopes.size := Array.size_modify

/-- Binding two names is binding them in the other order. -/
theorem get?_define_comm (st : Store) (s : ScopeId) {f g : String} (hne : f ≠ g) (v w : Value)
    (t : ScopeId) (name : String) :
    ((st.define s f v).define s g w).get? t name = ((st.define s g w).define s f v).get? t name := by
  simp only [get?_define, size_define]
  by_cases hf : f = name
  · have hg : g ≠ name := fun h => hne (hf.trans h.symm)
    simp [hg]
  · simp [hf]

end Store

mutual
/-- The number of lists in a datum: each takes an identity when the datum is loaded. -/
def Datum.lists : Datum → Nat
  | .list items => Datum.listsAll items + 1
  | _ => 0
/-- The number of lists in several data. -/
def Datum.listsAll : List Datum → Nat
  | [] => 0
  | d :: ds => d.lists + Datum.listsAll ds
end

namespace Value

mutual
/-- Loading a datum takes an identity for each list in it. -/
theorem load_next (d : Datum) (n : Nat) : (load d n).2 = n + d.lists := by
  cases d with
  | number x => rfl
  | bool b => rfl
  | symbol name => rfl
  | list items =>
    have h := loadAll_next items (n + 1)
    rw [load, Datum.lists]
    dsimp only
    omega
theorem loadAll_next (ds : List Datum) (n : Nat) : (loadAll ds n).2 = n + Datum.listsAll ds := by
  cases ds with
  | nil => rfl
  | cons d ds =>
    have h1 := load_next d n
    have h2 := loadAll_next ds (load d n).2
    rw [loadAll, Datum.listsAll]
    dsimp only
    omega
end

end Value

namespace Action
variable {α β : Type}

theorem perform_bind (a : Action α) (f : α → Action β) (st : Store) :
    (a >>= f).perform st =
      match a.perform st with
      | (.ok x, st') => (f x).perform st'
      | (.error e, st') => (.error e, st') := by
  simp only [perform, ExceptT.run_bind, StateT.run_bind]
  rcases h : StateT.run (ExceptT.run a) st with ⟨r, st'⟩
  cases r <;> rfl

/-- What is done in two steps succeeds if both do. -/
theorem perform_bind_eq_ok {a : Action α} {f : α → Action β} {st st' : Store} {y : β} :
    (a >>= f).perform st = (.ok y, st') ↔
      ∃ x st₁, a.perform st = (.ok x, st₁) ∧ (f x).perform st₁ = (.ok y, st') := by
  rw [perform_bind]
  constructor
  · intro h
    rcases ha : a.perform st with ⟨e | x, st₁⟩
    · rw [ha] at h
      cases h
    · rw [ha] at h
      exact ⟨x, st₁, rfl, h⟩
  · rintro ⟨x, st₁, ha, hf⟩
    rw [ha]
    exact hf

/-- It fails if the first step does, or the second after the first. -/
theorem perform_bind_eq_error {a : Action α} {f : α → Action β} {st st' : Store} {e : Error} :
    (a >>= f).perform st = (.error e, st') ↔ a.perform st = (.error e, st') ∨
      ∃ x st₁, a.perform st = (.ok x, st₁) ∧ (f x).perform st₁ = (.error e, st') := by
  rw [perform_bind]
  constructor
  · intro h
    rcases ha : a.perform st with ⟨e | x, st₁⟩
    · rw [ha] at h
      cases h
      exact .inl rfl
    · rw [ha] at h
      exact .inr ⟨x, st₁, rfl, h⟩
  · rintro (ha | ⟨x, st₁, ha, hf⟩)
    · rw [ha]
    · rw [ha]
      exact hf

theorem perform_tryCatch (a : Action α) (f : Error → Action α) (st : Store) :
    (tryCatch a f).perform st =
      match a.perform st with
      | (.ok x, st') => (.ok x, st')
      | (.error e, st') => (f e).perform st' := by
  change StateT.run (ExceptT.tryCatch a f).run st = _
  simp only [ExceptT.tryCatch, ExceptT.run_mk, StateT.run_bind]
  rcases h : a.perform st with ⟨r, st'⟩
  have hr : StateT.run a st = (r, st') := h
  rw [hr]
  cases r <;> rfl

@[simp]
theorem perform_pure (x : α) (st : Store) : (pure x : Action α).perform st = (.ok x, st) := rfl

@[simp]
theorem perform_throw (e : Error) (st : Store) :
    (throw e : Action α).perform st = (.error e, st) := rfl

@[simp]
theorem perform_get (st : Store) : (get : Action Store).perform st = (.ok st, st) := rfl

@[simp]
theorem perform_ofExcept (r : Except Error α) (st : Store) : (ofExcept r).perform st = (r, st) := by
  cases r <;> rfl

@[simp]
theorem perform_define (s : ScopeId) (name : String) (v : Value) (st : Store) :
    (define s name v).perform st = (.ok (), st.define s name v) := rfl

@[simp]
theorem perform_extend (s : ScopeId) (more : List (String × Value)) (st : Store) :
    (extend s more).perform st = (.ok (st.extend s more).1, (st.extend s more).2) := rfl

@[simp]
theorem perform_draw (st : Store) :
    draw.perform st = (.ok (st.numbers st.draws), { st with draws := st.draws + 1 }) := rfl

@[simp]
theorem perform_load (d : Datum) (st : Store) :
    (load d).perform st = (.ok (Value.load d st.nextIdentity).1,
      { st with nextIdentity := st.nextIdentity + d.lists }) := by
  rw [← Value.load_next]
  rfl

theorem perform_set (s : ScopeId) (name : String) (v : Value) (st : Store) :
    (set s name v).perform st =
      if st.contains s name then (.ok (), st.define s name v)
      else (.error (.unbound name), st) := by
  rw [set, perform_bind, perform_get]
  dsimp only
  split <;> rfl

theorem perform_lookup (s : ScopeId) (name : String) (st : Store) :
    (lookup s name).perform st =
      match st.get? s name with
      | some v => (.ok v, st)
      | none => (.error (.unbound name), st) := by
  rw [lookup, perform_bind, perform_get]
  dsimp only
  cases st.get? s name <;> rfl

end Action

end SmallScheme
