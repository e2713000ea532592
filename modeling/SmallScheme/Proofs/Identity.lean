import SmallScheme.Proofs.Interaction
import SmallScheme.Proofs.Reachable

/-! Identities of lists: in a session, two lists with one identity are one list.

A heap records the items that lists were made with, by their identities. An identity that is handed
out is a new one, so that the heap can take up the list that it is for, and evaluation comes by
values in no other way than from the lists that it finds and makes. -/
namespace SmallScheme

/-- The items of the lists that were made, by identity. -/
abbrev Heap := Nat → Option (List Value)

mutual
/-- Every list in a value has the items that the heap has for its identity. -/
def Value.Over (heap : Heap) : Value → Prop
  | .list i items => heap i = some items ∧ Value.OverAll heap items
  | .closure _ _ body _ => body.Over heap
  | _ => True
/-- Every one of several values is over the heap. -/
def Value.OverAll (heap : Heap) : List Value → Prop
  | [] => True
  | v :: vs => v.Over heap ∧ Value.OverAll heap vs
end

namespace Heap

/-- A heap that has taken up more lists. -/
def Grows (heap heap' : Heap) : Prop := ∀ i items, heap i = some items → heap' i = some items

/-- No list has an identity from `next` on. -/
def Fresh (heap : Heap) (next : Nat) : Prop := ∀ i, next ≤ i → heap i = none

/-- The heap with a list made of the given items. -/
def add (heap : Heap) (i : Nat) (items : List Value) : Heap :=
  fun j => if j = i then some items else heap j

variable {heap heap1 heap2 : Heap} {next : Nat}

theorem Grows.refl (heap : Heap) : heap.Grows heap := fun _ _ hi => hi

theorem Grows.trans (h1 : heap.Grows heap1) (h2 : heap1.Grows heap2) : heap.Grows heap2 :=
  fun i items hi => h2 i items (h1 i items hi)

theorem add_self (heap : Heap) (i : Nat) (items : List Value) : heap.add i items i = some items :=
  if_pos rfl

theorem Fresh.add_grows (h : heap.Fresh next) (items : List Value) :
    heap.Grows (heap.add next items) := by
  intro i old hi
  have hne : i ≠ next := by
    intro he
    rw [h i (Nat.le_of_eq he.symm)] at hi
    cases hi
  exact (if_neg hne).trans hi

theorem Fresh.add (h : heap.Fresh next) (items : List Value) :
    (heap.add next items).Fresh (next + 1) := by
  intro i hi
  have hne : i ≠ next := by omega
  exact (if_neg hne).trans (h i (by omega))

theorem Fresh.mono (h : heap.Fresh next) {n : Nat} (hn : next ≤ n) : heap.Fresh n :=
  fun i hi => h i (Nat.le_trans hn hi)

end Heap

namespace Value
variable {heap heap' : Heap}

theorem overAll_iff {vs : List Value} : OverAll heap vs ↔ ∀ v ∈ vs, v.Over heap := by
  induction vs with
  | nil => simp [OverAll]
  | cons v vs ih => simp [OverAll, ih]

theorem over_list {i : Nat} {items : List Value} :
    (list i items).Over heap ↔ heap i = some items ∧ ∀ v ∈ items, v.Over heap := by
  rw [Over, overAll_iff]

theorem over_atom {v : Value} (hl : ∀ i items, v ≠ list i items)
    (hc : ∀ i params body s, v ≠ closure i params body s) : v.Over heap := by
  cases v with
  | list i items => exact absurd rfl (hl i items)
  | closure i params body s => exact absurd rfl (hc i params body s)
  | _ => trivial

theorem over_hereditary : Hereditary (Over heap) where
  atom _ := over_atom
  items h := (over_list.mp h).2

theorem Over.mono {v : Value} (h : v.Over heap) (hg : heap.Grows heap') : v.Over heap' := by
  induction v using Value.nested with
  | list i items ih =>
    obtain ⟨hi, hitems⟩ := over_list.mp h
    exact over_list.mpr ⟨hg i items hi, fun v hv => ih v hv (hitems v hv)⟩
  | closure i params body s ih => exact ih h
  | atom v hl hc => exact over_atom hl hc

mutual
/-- The lists of a loaded value are new, so that the heap can take them up. -/
theorem load_over (d : Datum) {n : Nat} {heap : Heap} (h : heap.Fresh n) :
    ∃ heap' : Heap, heap.Grows heap' ∧ heap'.Fresh (load d n).2 ∧ (load d n).1.Over heap' := by
  cases d with
  | number x => exact ⟨heap, .refl heap, h, trivial⟩
  | bool b => exact ⟨heap, .refl heap, h, trivial⟩
  | symbol name => exact ⟨heap, .refl heap, h, trivial⟩
  | list items =>
    -- the list has its identity before its items have theirs
    obtain ⟨heap', hg, hfresh, hitems⟩ := loadAll_over items (h.add (loadAll items (n + 1)).1)
    have hself := hg n _ (Heap.add_self heap n (loadAll items (n + 1)).1)
    rw [load]
    exact ⟨heap', (h.add_grows _).trans hg, hfresh, over_list.mpr ⟨hself, hitems⟩⟩
theorem loadAll_over (ds : List Datum) {n : Nat} {heap : Heap} (h : heap.Fresh n) :
    ∃ heap' : Heap, heap.Grows heap' ∧ heap'.Fresh (loadAll ds n).2 ∧
      ∀ v ∈ (loadAll ds n).1, v.Over heap' := by
  cases ds with
  | nil => exact ⟨heap, .refl heap, h, fun v hv => absurd hv List.not_mem_nil⟩
  | cons d ds =>
    obtain ⟨heap1, hg1, hfresh1, hv⟩ := load_over d h
    obtain ⟨heap2, hg2, hfresh2, hvs⟩ := loadAll_over ds hfresh1
    rw [loadAll]
    exact ⟨heap2, hg1.trans hg2, hfresh2, List.forall_mem_cons.mpr ⟨hv.mono hg2, hvs⟩⟩
end

end Value

/-- A store with a heap that records all lists in it. -/
structure Ledger where
  store : Store
  heap : Heap
  fresh : heap.Fresh store.nextIdentity
  bound : ∀ s name v, store.get? s name = some v → v.Over heap
  shown : ∀ v ∈ store.shown, v.Over heap

namespace Ledger

/-- Taking an identity for a list, which the heap takes up. -/
def newList (w : Ledger) (items : List Value) : Ledger where
  store := { w.store with nextIdentity := w.store.nextIdentity + 1 }
  heap := w.heap.add w.store.nextIdentity items
  fresh := w.fresh.add items
  bound s name v hg := (w.bound s name v hg).mono (w.fresh.add_grows items)
  shown v hv := (w.shown v hv).mono (w.fresh.add_grows items)

/-- Taking identities for anything else. -/
def skip (w : Ledger) (n : Nat) : Ledger where
  store := { w.store with nextIdentity := w.store.nextIdentity + n }
  heap := w.heap
  fresh := w.fresh.mono (Nat.le_add_right _ n)
  bound := w.bound
  shown := w.shown

def extend (w : Ledger) (s : ScopeId) {more : List (String × Value)}
    (hm : ∀ p ∈ more, p.2.Over w.heap) : Ledger where
  store := (w.store.extend s more).2
  heap := w.heap
  fresh := w.fresh
  bound t name v hg := by
    obtain ⟨p, hp, rfl⟩ | ⟨t', hb⟩ := Store.get?_extend_cases hg
    · exact hm p hp
    · exact w.bound t' name v hb
  shown := w.shown

def define (w : Ledger) (s : ScopeId) (name : String) {v : Value} (hv : v.Over w.heap) :
    Ledger where
  store := w.store.define s name v
  heap := w.heap
  fresh := w.fresh
  bound t key u hg := by
    obtain rfl | hb := Store.get?_define_cases hg
    · exact hv
    · exact w.bound t key u hb
  shown := w.shown

def display (w : Ledger) {v : Value} (hv : v.Over w.heap) : Ledger where
  store := { w.store with shown := w.store.shown.push v }
  heap := w.heap
  fresh := w.fresh
  bound := w.bound
  shown u hu := by
    obtain hu | rfl := Array.mem_push.mp hu
    · exact w.shown u hu
    · exact hv

def clear (w : Ledger) : Ledger where
  store := { w.store with shown := #[] }
  heap := w.heap
  fresh := w.fresh
  bound := w.bound
  shown v hv := absurd hv (Array.not_mem_empty v)

end Ledger

/-- Evaluation keeps a record of all lists. -/
def recording : Regime where
  World := Ledger
  store := Ledger.store
  step a b := a.heap.Grows b.heap
  admits w v := v.Over w.heap
  readable _ _ := True
  writable _ _ := True
  step_refl w := .refl w.heap
  step_trans := Heap.Grows.trans
  admits_mono hg _ hv := hv.mono hg
  readable_mono _ _ h := h
  writable_mono _ _ h := h
  readable_of_writable h := h
  hereditary _ := Value.over_hereditary
  closure h := ⟨h, trivial⟩
  get {w s name v} _ hg := w.bound s name v hg
  newList {w items} h := by
    -- nothing is recorded for the identity yet, so that what is recorded stays
    have hgrows := w.fresh.add_grows items
    refine ⟨w.newList items, rfl, hgrows, Value.over_list.mpr ⟨?_, ?_⟩⟩
    · exact Heap.add_self w.heap _ items
    · exact fun v hv => (h v hv).mono hgrows
  newClosure {w _ _ _} hb _ := ⟨w.skip 1, rfl, .refl _, hb⟩
  extend {w s _} _ hm := ⟨w.extend s hm, rfl, .refl _, trivial⟩
  define {w s name _} _ hv := ⟨w.define s name hv, rfl, .refl _⟩
  display {w _} hv := ⟨w.display hv, rfl, .refl _⟩
  draw w := ⟨{ w with store := { w.store with draws := w.store.draws + 1 } }, rfl, .refl _⟩

theorem recording_load (w : Ledger) (d : Datum) :
    recording.Obeys w (Action.load d) recording.Admits := by
  obtain ⟨heap, hg, hfresh, hv⟩ := Value.load_over d w.fresh
  refine ⟨⟨_, heap, hfresh, ?_, ?_⟩, rfl, hg, ?_⟩
  · exact fun s name v hb => (w.bound s name v hb).mono hg
  · exact fun v hs => (w.shown v hs).mono hg
  · intro v hr
    cases hr
    exact hv

/-- The value of an outcome and the values that were shown are over the heap. -/
def Outcome.Over (heap : Heap) (outcome : Outcome Value) : Prop :=
  (∀ v, outcome.result = .ok v → v.Over heap) ∧ ∀ v ∈ outcome.shown, v.Over heap

theorem Outcome.Over.mono {heap heap' : Heap} {outcome : Outcome Value} (h : outcome.Over heap)
    (hg : heap.Grows heap') : outcome.Over heap' :=
  ⟨fun v hv => (h.1 v hv).mono hg, fun v hv => (h.2 v hv).mono hg⟩

namespace Session

/-- At the start there are no lists to record. -/
def ledger (setup : Setup) : Ledger where
  store := (start setup).store
  heap _ := none
  fresh _ _ := rfl
  bound s name v hg := by
    have hin := start_closed setup s name v hg
    cases v with
    | list i items => exact absurd (Value.within_list.mp hin).1 (Nat.not_lt_zero i)
    | closure i params body t => exact absurd hin.1 (Nat.not_lt_zero i)
    | _ => trivial
  shown v hv := absurd hv (Array.not_mem_empty v)

theorem evaluate_over {ses : Session} {w : Ledger} (hw : w.store = ses.store) (text : String) :
    ∃ w' : Ledger, w'.store = (ses.evaluate text).2.store ∧ w.heap.Grows w'.heap ∧
      (ses.evaluate text).1.Over w'.heap := by
  have hrun : recording.Obeys w.clear ((Program.ofText text).eval ses.depth ses.global)
      recording.Admits := Regime.obeys_program recording_load ses.depth _ trivial
  obtain ⟨w', hstore, hgrows, hvalue⟩ := hrun
  -- what was shown before is cleared first
  have hclear : recording.store w.clear = { ses.store with shown := #[] } := by
    rw [← hw]
    rfl
  rw [hclear] at hstore hvalue
  refine ⟨w', hstore, hgrows, hvalue, ?_⟩
  intro v hv
  apply w'.shown v
  change v ∈ (recording.store w').shown
  rw [hstore]
  exact Array.mem_toList_iff.mp hv

/-- All values that a session comes by are over one heap: those that are bound in its scopes, and
those that its evaluations gave or showed. -/
theorem evaluateAll_over {ses : Session} {w : Ledger} (hw : w.store = ses.store)
    (texts : List String) :
    ∃ w' : Ledger, w'.store = (ses.evaluateAll texts).2.store ∧ w.heap.Grows w'.heap ∧
      ∀ p ∈ (ses.evaluateAll texts).1, p.2.Over w'.heap := by
  induction texts generalizing ses w with
  | nil => exact ⟨w, hw, .refl _, fun p hp => absurd hp List.not_mem_nil⟩
  | cons text texts ih =>
    obtain ⟨w1, hw1, hg1, houtcome⟩ := evaluate_over hw text
    obtain ⟨w2, hw2, hg2, houtcomes⟩ := ih hw1
    exact ⟨w2, hw2, hg1.trans hg2, List.forall_mem_cons.mpr ⟨houtcome.mono hg2, houtcomes⟩⟩

end Session

end SmallScheme
