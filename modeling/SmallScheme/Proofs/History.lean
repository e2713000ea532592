import SmallScheme.Proofs.Store

/-! Histories of scopes: what a handle reads is what was last written through any handle of its scope.

A history is a sequence of operations on handles. Handles are numbered in the order in which they are
made, and an operation refers to one that there is, so there is nothing that a history could do wrong.
What a history comes to is said twice: by running it on a store, where a handle is the name of a scope,
and by looking back through its operations, where a handle is followed through those that it shares its
scope with to the operation that made the scope. -/
namespace SmallScheme

/-- An operation that makes a handle, where there are `n` already. -/
inductive Making (n : Nat) where
  | new
  | share (g : Fin n)
  | extend (g : Fin n) (more : List (String × Value))

/-- An operation that writes through a handle. -/
inductive Writing where
  | define | assign

/-- A sequence of operations, the last one outermost, that makes `n` handles. -/
inductive History : Nat → Type where
  | start : History 0
  | make {n : Nat} (past : History n) (m : Making n) : History (n + 1)
  | write {n : Nat} (past : History n) (w : Writing) (g : Fin n) (name : String) (v : Value) : History n

/-- The scope of the new handle, and the store with it. -/
def Making.perform {n : Nat} (st : Store) (scope : Fin n → ScopeId) : Making n → ScopeId × Store
  | new => st.newScope ∅
  | share g => (scope g, st)
  | extend g more => st.extend (scope g) more

def Writing.action : Writing → ScopeId → String → Value → Action Unit
  | define => Action.define
  | assign => Action.set

/-- Runs the operations on a store: the store after them, and the scope of each handle. -/
def History.run (base : Store) : {n : Nat} → History n → Store × (Fin n → ScopeId)
  | _, .start => (base, nofun)
  | _, .make past m =>
    let (st, scope) := past.run base
    let (s, st) := m.perform st scope
    (st, Fin.lastCases s scope)
  | _, .write past w g name v =>
    let (st, scope) := past.run base
    (((w.action (scope g) name v).perform st).2, scope)

section
variable (base : Store) {n : Nat} (H : History n)

def History.store : Store := (H.run base).1

def History.scope : Fin n → ScopeId := (H.run base).2

/-- What a name is bound to in the scope of a handle. -/
def History.get? (h : Fin n) (name : String) : Option Value :=
  (H.store base).get? (H.scope base h) name

/-- What comes of writing through a handle, and the store after it. -/
def History.written (w : Writing) (h : Fin n) (name : String) (v : Value) :
    Except Error Unit × Store :=
  (w.action (H.scope base h) name v).perform (H.store base)

end

/-- The root of the new handle, from those of the handles that there are. -/
def Making.root {n : Nat} (roots : Fin n → Nat) : Making n → Nat
  | new => n
  | share g => roots g
  | extend _ _ => n

/-- The number of the handle that came with the scope: the end of the way back through shared scopes. -/
def History.root : {n : Nat} → History n → Fin n → Nat
  | _, .start => nofun
  | _, .make past m => Fin.lastCases (m.root fun h => past.root h) fun h => past.root h
  | _, .write past _ _ _ _ => past.root

/-- How a scope was made: from nothing, or from the scope that a handle had at the end of a history. -/
inductive Origin where
  | new
  | extend {n : Nat} (past : History n) (parent : Fin n) (more : List (String × Value))

/-- What a name was bound to when the scope was made. -/
def Origin.get? (base : Store) (name : String) : Origin → Option Value
  | new => none
  | extend past parent more => (Bindings.valueFor? name more).or (past.get? base parent name)

/-- How the scope of the new handle was made. -/
def Making.origin {n : Nat} (past : History n) (origins : Fin n → Origin) : Making n → Origin
  | new => .new
  | share g => origins g
  | extend g more => .extend past g more

/-- How the scope of a handle was made. -/
def History.origin : {n : Nat} → History n → Fin n → Origin
  | _, .start => nofun
  | _, .make past m => Fin.lastCases (m.origin past fun h => past.origin h) fun h => past.origin h
  | _, .write past _ _ _ _ => past.origin

/-- The value that was last written with success for a name, through any handle with the given root. -/
def History.lastWrite (base : Store) (r : Nat) (name : String) : {n : Nat} → History n → Option Value
  | _, .start => none
  | _, .make past _ => past.lastWrite base r name
  | _, .write past w g key v =>
    if past.root g = r ∧ key = name ∧ (past.written base w g key v).1.isOk then some v
    else past.lastWrite base r name

namespace History

section
variable (base : Store) {n : Nat} (past : History n) (m : Making n) (h : Fin n)

@[simp]
theorem store_make :
    (make past m).store base = (m.perform (past.store base) (past.scope base)).2 := rfl

@[simp]
theorem scope_make_last :
    (make past m).scope base (Fin.last n) = (m.perform (past.store base) (past.scope base)).1 := by
  simp only [scope, run, Fin.lastCases_last]
  rfl

@[simp]
theorem scope_make_castSucc : (make past m).scope base h.castSucc = past.scope base h := by
  simp only [scope, run, Fin.lastCases_castSucc]

@[simp]
theorem root_make_last : (make past m).root (Fin.last n) = m.root past.root := by
  simp only [root, Fin.lastCases_last]

@[simp]
theorem origin_make_last : (make past m).origin (Fin.last n) = m.origin past past.origin := by
  simp only [origin, Fin.lastCases_last]

@[simp]
theorem root_make_castSucc : (make past m).root h.castSucc = past.root h := by
  simp only [root, Fin.lastCases_castSucc]

@[simp]
theorem origin_make_castSucc : (make past m).origin h.castSucc = past.origin h := by
  simp only [origin, Fin.lastCases_castSucc]

end

section
variable {n : Nat} (H : History n)

theorem root_lt (h : Fin n) : H.root h < n := by
  induction H with
  | start => exact h.elim0
  | make past m ih =>
    cases h using Fin.lastCases with
    | last =>
      rw [root_make_last]
      cases m with
      | share g => exact Nat.lt_succ_of_lt (ih g)
      | _ => exact Nat.lt_succ_self _
    | cast h =>
      rw [root_make_castSucc]
      exact Nat.lt_succ_of_lt (ih h)
  | write past w g name v ih => exact ih h

/-- Nothing was written through handles that are still to be made. -/
theorem lastWrite_eq_none (base : Store) {r : Nat} (hr : n ≤ r) (name : String) :
    H.lastWrite base r name = none := by
  induction H with
  | start => rfl
  | make past m ih => exact ih (Nat.le_of_succ_le hr)
  | write past w g key v ih =>
    have hroot : past.root g ≠ r := fun h => absurd (past.root_lt g) (by omega)
    rw [lastWrite, if_neg fun h => hroot h.1]
    exact ih hr

end

end History

namespace Making
variable {n : Nat} (m : Making n) (st : Store) (scope : Fin n → ScopeId)

theorem size_le_perform : st.scopes.size ≤ (m.perform st scope).2.scopes.size := by
  cases m with
  | share g => exact Nat.le_refl _
  | _ => exact Array.size_push _ ▸ Nat.le_succ _

/-- The scopes that there are stay as they are. -/
theorem get?_perform {t : ScopeId} (ht : t.index < st.scopes.size) (name : String) :
    (m.perform st scope).2.get? t name = st.get? t name := by
  cases m with
  | share g => rfl
  | _ => exact (st.get?_newScope _ t name).trans (if_neg (Nat.ne_of_lt ht))

end Making

/-- Writing fails and changes nothing, or binds the name. -/
theorem Writing.perform_action (w : Writing) (s : ScopeId) (name : String) (v : Value) (st : Store) :
    ((w.action s name v).perform st).2 =
      if ((w.action s name v).perform st).1.isOk then st.define s name v else st := by
  cases w with
  | define => rfl
  | assign =>
    rw [action, Action.perform_set]
    split <;> rfl

namespace History
variable (base : Store) {n : Nat} (H : History n)

theorem store_write (w : Writing) (g : Fin n) (name : String) (v : Value) :
    (write H w g name v).store base =
      if (H.written base w g name v).1.isOk then (H.store base).define (H.scope base g) name v
      else H.store base :=
  w.perform_action _ name v _

theorem scope_lt (h : Fin n) : (H.scope base h).index < (H.store base).scopes.size := by
  induction H with
  | start => exact h.elim0
  | make past m ih =>
    cases h using Fin.lastCases with
    | last =>
      rw [scope_make_last, store_make]
      cases m with
      | share g => exact ih g
      | _ => exact Array.size_push _ ▸ Nat.lt_succ_self _
    | cast h =>
      rw [scope_make_castSucc, store_make]
      exact Nat.lt_of_lt_of_le (ih h) (m.size_le_perform _ _)
  | write past w g name v ih =>
    rw [store_write]
    split
    · rw [Store.size_define]
      exact ih h
    · exact ih h

variable {base H} in
/-- A handle that is made has a scope of its own, or the scope that it was made to share. -/
theorem scope_last_eq_iff
    (hsame : ∀ g h, H.scope base g = H.scope base h ↔ H.root g = H.root h) (m : Making n) (h : Fin n) :
    (make H m).scope base (Fin.last n) = H.scope base h ↔
      (make H m).root (Fin.last n) = H.root h := by
  -- no handle has a root or a scope yet that a new scope comes with
  have hroot : n ≠ H.root h := Nat.ne_of_gt (H.root_lt h)
  have hscope : (⟨(H.store base).scopes.size⟩ : ScopeId) ≠ H.scope base h := by
    intro heq
    exact absurd (H.scope_lt base h) (heq ▸ Nat.lt_irrefl _)
  rw [scope_make_last, root_make_last]
  cases m with
  | share g => exact hsame g h
  | new => exact iff_of_false hscope hroot
  | extend g more => exact iff_of_false hscope hroot

/-- Two handles have the same scope if the way back from both ends at the same handle. -/
theorem scope_eq_iff (g h : Fin n) : H.scope base g = H.scope base h ↔ H.root g = H.root h := by
  induction H with
  | start => exact g.elim0
  | make past m ih =>
    cases g using Fin.lastCases with
    | last =>
      cases h using Fin.lastCases with
      | last => exact iff_of_true rfl rfl
      | cast h =>
        rw [scope_make_castSucc, root_make_castSucc]
        exact scope_last_eq_iff ih m h
    | cast g =>
      rw [scope_make_castSucc, root_make_castSucc]
      cases h using Fin.lastCases with
      | last =>
        rw [eq_comm, eq_comm (a := past.root g)]
        exact scope_last_eq_iff ih m g
      | cast h =>
        rw [scope_make_castSucc, root_make_castSucc]
        exact ih g h
  | write past w k name v ih => exact ih g h

/-- What is read after a write: the value if it was written for that name, with success, and through a
handle of the same scope. -/
theorem get?_write (w : Writing) (g : Fin n) (key : String) (v : Value) (h : Fin n) (name : String) :
    (write H w g key v).get? base h name =
      if H.root g = H.root h ∧ key = name ∧ (H.written base w g key v).1.isOk then some v
      else H.get? base h name := by
  have hscope : (write H w g key v).scope base h = H.scope base h := rfl
  rw [get?, hscope, store_write]
  by_cases hok : (H.written base w g key v).1.isOk = true
  · have hlt := H.scope_lt base h
    have hsame := H.scope_eq_iff base g h
    rw [if_pos hok, Store.get?_define]
    simp only [hsame, hlt, hok, true_and, and_true]
    rfl
  · rw [if_neg hok, if_neg fun hall => hok hall.2.2]
    rfl

/-- What the new handle reads: nothing was written through it yet. -/
theorem get?_make_last (m : Making n) (name : String)
    (hpast : ∀ h, H.get? base h name =
      (H.lastWrite base (H.root h) name).or ((H.origin h).get? base name)) :
    (make H m).get? base (Fin.last n) name =
      (H.lastWrite base ((make H m).root (Fin.last n)) name).or
        (((make H m).origin (Fin.last n)).get? base name) := by
  have hnone := H.lastWrite_eq_none base (Nat.le_refl n) name
  rw [get?, scope_make_last, store_make, root_make_last, origin_make_last]
  cases m with
  | share g => exact hpast g
  | new =>
    rw [Making.root, hnone]
    exact (Store.get?_newScope _ _ _ name).trans (if_pos rfl)
  | extend g more =>
    rw [Making.root, hnone]
    refine (Store.get?_extend _ _ more _ name).trans ((if_pos rfl).trans ?_)
    exact Bindings.getElem?_overlay _ more name

theorem get?_eq (h : Fin n) (name : String) :
    H.get? base h name =
      (H.lastWrite base (H.root h) name).or ((H.origin h).get? base name) := by
  induction H with
  | start => exact h.elim0
  | make past m ih =>
    cases h using Fin.lastCases with
    | last => exact past.get?_make_last base m name ih
    | cast h =>
      -- an older handle has a scope that was there before
      rw [root_make_castSucc, origin_make_castSucc, lastWrite, ← ih h, get?, scope_make_castSucc]
      exact m.get?_perform _ _ (past.scope_lt base h) name
  | write past w g key v ih =>
    have hroot : (write past w g key v).root h = past.root h := rfl
    rw [get?_write, hroot, lastWrite, ih h]
    split <;> rfl

theorem written_assign (h : Fin n) (name : String) (v : Value) :
    H.written base .assign h name v =
      if (H.get? base h name).isSome then (.ok (), (H.store base).define (H.scope base h) name v)
      else (.error (.unbound name), H.store base) := by
  rw [get?, ← Store.contains_eq]
  exact Action.perform_set _ name v _

/-- Scopes follow the history of the operations on them, whatever the store that it begins with. Two
handles have the same scope if and only if the way back from both, through the handles that they share
their scopes with, ends at the same one. What a name is bound to is what was last written for it with
success through any handle of the scope, or else the last value that it was given where the scope was
made, or else what it was bound to then in the scope that was extended, and nothing in a scope that was
new. Whether a name is bound, the names in order and their number say the same. Defining always succeeds,
and assigning fails if and only if the name is bound to nothing at that moment, and then changes
nothing. -/
theorem scopes_follow_history :
    (∀ g h, H.scope base g = H.scope base h ↔ H.root g = H.root h) ∧
    (∀ h name, H.get? base h name =
      (H.lastWrite base (H.root h) name).or ((H.origin h).get? base name)) ∧
    (∀ h, let st := H.store base; let s := H.scope base h
      (∀ name, st.contains s name = (H.get? base h name).isSome) ∧
      (∀ name, name ∈ st.names s ↔ (H.get? base h name).isSome) ∧
      (st.names s).Pairwise (· < ·) ∧ (st.bindings s).size = (st.names s).length) ∧
    ∀ h name v,
      (H.written base .define h name v).1 = .ok () ∧
      ((H.written base .assign h name v).1.isOk = false ↔ H.get? base h name = none) ∧
      (H.get? base h name = none →
        H.written base .assign h name v = (.error (.unbound name), H.store base)) := by
  refine ⟨H.scope_eq_iff base, H.get?_eq base, fun h => ⟨fun name => ?_, fun name => ?_, ?_, ?_⟩,
    fun h name v => ⟨rfl, ?_, ?_⟩⟩
  · exact Store.contains_eq _ _ name
  · exact Store.mem_names _ _ name
  · exact Store.names_pairwise _ _
  · exact Std.TreeMap.length_keys.symm
  · rw [written_assign]
    cases H.get? base h name <;> simp [Except.isOk, Except.toBool]
  · intro hnone
    rw [written_assign, hnone]
    rfl

/-- A handle sees what is written through one that it shares its scope with. A scope that was made from
another keeps what that one had then. -/
example :
    let H := start.make .new |>.make (.share 0) |>.write .define 1 "x" (.bool true)
      |>.make (.extend 0 []) |>.write .assign 0 "x" (.bool false)
    H.get? {} 1 "x" = some (.bool false) ∧ H.get? {} 2 "x" = some (.bool true) :=
  ⟨rfl, rfl⟩

end History

end SmallScheme
