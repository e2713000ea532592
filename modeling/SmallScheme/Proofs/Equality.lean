import Mathlib.Data.List.Forall2
import SmallScheme.Proofs.Identity

/-! The three equalities of values: by structure, by content and by identity.

Structural equality is equality of canonical forms, which makes it an equivalence that looks at
lists item by item. The other two refine it, although neither is an equivalence: not-a-number equals
nothing, and a list that holds it is identical to itself but not equal in content. -/
namespace SmallScheme

namespace Canonical

mutual
/-- Canonical forms hold no number that differs from itself. -/
theorem same_self (c : Canonical) : c.same c = true := by
  cases c with
  | null => rfl
  | bool b => exact decide_eq_true rfl
  | number m => exact decide_eq_true rfl
  | string s => exact decide_eq_true rfl
  | list items => exact sameAll_self items
theorem sameAll_self (cs : List Canonical) : sameAll cs cs = true := by
  cases cs with
  | nil => rfl
  | cons c cs =>
    rw [sameAll, same_self c, sameAll_self cs]
    rfl
end

mutual
theorem eq_of_same (c d : Canonical) (h : c.same d = true) : c = d := by
  cases c with
  | null => cases d with
    | null => rfl
    | _ => cases h
  | bool a => cases d with
    | bool b => rw [of_decide_eq_true h]
    | _ => cases h
  | number m => cases d with
    | number n => rw [of_decide_eq_true h]
    | _ => cases h
  | string s => cases d with
    | string t => rw [of_decide_eq_true h]
    | _ => cases h
  | list xs => cases d with
    | list ys => rw [eq_of_sameAll xs ys h]
    | _ => cases h
theorem eq_of_sameAll (cs ds : List Canonical) (h : sameAll cs ds = true) : cs = ds := by
  cases cs with
  | nil => cases ds with
    | nil => rfl
    | cons d ds => cases h
  | cons c cs => cases ds with
    | nil => cases h
    | cons d ds =>
      rw [sameAll, Bool.and_eq_true] at h
      rw [eq_of_same c d h.1, eq_of_sameAll cs ds h.2]
end

/-- Canonical forms are compared by what they are. -/
theorem same_iff {c d : Canonical} : c.same d = true ↔ c = d := by
  constructor
  · exact eq_of_same c d
  · rintro rfl
    exact same_self c

end Canonical

/-- No finite number is as far out as the infinities are. -/
theorem Binary64.signed_ne_limit {n : Nat} (hn : IsMagnitude n) (s t : Bool) :
    signed s n ≠ signed t (twoPow Grid.double.limit) := by
  intro h
  have habs := congrArg Int.natAbs h
  rw [natAbs_signed, natAbs_signed] at habs
  exact absurd hn.1 (habs ▸ Nat.lt_irrefl n)

/-- Numbers that are equal have one canonical form. -/
theorem Canonical.ofNumber_eq {x y : Binary64} (h : x.same y = true) :
    ofNumber x = ofNumber y := by
  unfold Binary64.same Binary64.related at h
  cases x with
  | nan => cases h
  | infinite s =>
    cases y with
    | nan => cases h
    | infinite t => rfl
    | finite t n hn => exact absurd (eq_of_beq h).symm (Binary64.signed_ne_limit hn t s)
  | finite s m hm =>
    cases y with
    | nan => cases h
    | infinite t => exact absurd (eq_of_beq h) (Binary64.signed_ne_limit hm s t)
    | finite t n hn => exact congrArg Canonical.number (eq_of_beq h)

namespace Value

/-- Structural equality is equality of canonical forms. -/
theorem isEqual_iff {v w : Value} : v.isEqual w = true ↔ v.canonical = w.canonical :=
  Canonical.same_iff

theorem canonical_list (i : Nat) (items : List Value) :
    (list i items).canonical = .list (items.map canonical) := by
  rw [canonical, canonicals_eq_map]

theorem isEqual_list {i j : Nat} {xs ys : List Value} :
    (list i xs).isEqual (list j ys) = true ↔
      List.Forall₂ (fun x y => x.isEqual y = true) xs ys := by
  rw [isEqual_iff, canonical_list, canonical_list, Canonical.list.injEq, ← List.forall₂_eq_eq_eq,
    List.forall₂_map_left_iff, List.forall₂_map_right_iff]
  simp only [isEqual_iff]

theorem isEqual_list_other {i : Nat} {xs : List Value} {v : Value} (hv : ∀ j ys, v ≠ list j ys) :
    (list i xs).isEqual v = false := by
  rw [Bool.eq_false_iff]
  intro h
  rw [isEqual_iff, canonical_list] at h
  cases v with
  | list j ys => exact absurd rfl (hv j ys)
  | number x =>
    rw [canonical] at h
    cases x <;> cases h
  | _ => cases h

mutual
/-- What is equal in content is structurally equal. -/
theorem canonical_eq_of_same (v w : Value) (h : v.same w = true) : v.canonical = w.canonical := by
  -- values of different kinds are never equal in content
  cases v with
  | number x => cases w with
    | number y => exact Canonical.ofNumber_eq h
    | _ => cases h
  | bool a => cases w with
    | bool b => rw [of_decide_eq_true h]
    | _ => cases h
  | string s => cases w with
    | string t => rw [of_decide_eq_true h]
    | _ => cases h
  | symbol s => cases w with
    | symbol t => rw [of_decide_eq_true h]
    | _ => cases h
  | list i xs => cases w with
    | list j ys =>
      rw [canonical_list, canonical_list, map_canonical_eq_of_sameAll xs ys h]
    | _ => cases h
  | nil => cases w with
    | nil => rfl
    | _ => cases h
  | unspecified => cases w with
    | unspecified => rfl
    | _ => cases h
  | builtin p => cases w with
    | builtin q => rfl
    | _ => cases h
  | closure i params body s => cases w with
    | closure j params' body' s' => rfl
    | _ => cases h
theorem map_canonical_eq_of_sameAll (vs ws : List Value) (h : sameAll vs ws = true) :
    vs.map canonical = ws.map canonical := by
  cases vs with
  | nil => cases ws with
    | nil => rfl
    | cons w ws => cases h
  | cons v vs => cases ws with
    | nil => cases h
    | cons w ws =>
      rw [sameAll, Bool.and_eq_true] at h
      rw [List.map_cons, List.map_cons, canonical_eq_of_same v w h.1,
        map_canonical_eq_of_sameAll vs ws h.2]
end

/-- Identical values are equal in content, unless they are lists, which then have one identity. -/
theorem same_of_isIdentical {v w : Value} (h : v.isIdentical w = true) :
    v.same w = true ∨ ∃ i xs ys, v = list i xs ∧ w = list i ys := by
  cases v with
  | list i xs =>
    cases w with
    | list j ys =>
      obtain rfl : i = j := of_decide_eq_true h
      exact Or.inr ⟨i, xs, ys, rfl, rfl⟩
    | _ => cases h
  | _ =>
    -- of all other values identity asks for the same as equality of content
    left
    cases w with
    | list j ys => cases h
    | _ => exact h

theorem isEqual_of_isIdentical {heap : Heap} {v w : Value} (hv : v.Over heap) (hw : w.Over heap)
    (h : v.isIdentical w = true) : v.isEqual w = true := by
  apply isEqual_iff.mpr
  obtain hsame | ⟨i, xs, ys, rfl, rfl⟩ := same_of_isIdentical h
  · exact canonical_eq_of_same v w hsame
  · -- the heap has one list of items for the identity of both
    have hitems : some xs = some ys := (over_list.mp hv).1.symm.trans (over_list.mp hw).1
    cases hitems
    rfl

end Value

/-- Structural equality, which `equal?` asks for, is an equivalence and looks at lists item by item;
a symbol equals the string with its text, and a list equals nothing but lists. Equality of content
refines it, and so does identity, which `eq?` asks for, among values whose lists are over one heap,
so that an identity stands for one list. In a session all values are: those bound in any scope, and
those that evaluations gave or showed. -/
theorem isEqual_equivalence :
    (∀ a b : Value, Primitive.equal.reply [a, b] = .ok (.value (.bool (a.isEqual b))) ∧
      Primitive.eq.reply [a, b] = .ok (.value (.bool (a.isIdentical b)))) ∧
    Equivalence (fun a b : Value => a.isEqual b = true) ∧
    (∀ (i j : Nat) (xs ys : List Value), (Value.list i xs).isEqual (.list j ys) = true ↔
      List.Forall₂ (fun x y => x.isEqual y = true) xs ys) ∧
    (∀ text, (Value.symbol text).isEqual (.string text) = true) ∧
    (∀ (i : Nat) (xs : List Value) (v : Value), (∀ j ys, v ≠ .list j ys) →
      (Value.list i xs).isEqual v = false ∧ v.isEqual (.list i xs) = false) ∧
    (∀ a b : Value, a.same b = true → a.isEqual b = true) ∧
    (∀ (heap : Heap) (a b : Value), a.Over heap → b.Over heap → a.isIdentical b = true →
      a.isEqual b = true) ∧
    ∀ (setup : Setup) (texts : List String), ∃ heap : Heap,
      let all := (Session.start setup).evaluateAll texts
      (∀ s name v, all.2.store.get? s name = some v → v.Over heap) ∧
        ∀ p ∈ all.1, p.2.Over heap := by
  have hequivalence : Equivalence (fun a b : Value => a.isEqual b = true) := by
    simp only [Value.isEqual_iff]
    exact ⟨fun _ => rfl, Eq.symm, Eq.trans⟩
  refine ⟨fun _ _ => ⟨rfl, rfl⟩, hequivalence, ?_, ?_, ?_, ?_, ?_, ?_⟩
  · exact fun _ _ _ _ => Value.isEqual_list
  · exact fun _ => Value.isEqual_iff.mpr rfl
  · intro i xs v hv
    refine ⟨Value.isEqual_list_other hv, Bool.eq_false_iff.mpr fun h => ?_⟩
    have hlist := hequivalence.symm h
    rw [Value.isEqual_list_other hv] at hlist
    cases hlist
  · exact fun a b h => Value.isEqual_iff.mpr (Value.canonical_eq_of_same a b h)
  · exact fun _ _ _ => Value.isEqual_of_isIdentical
  · -- at the start of a session there are no lists, and every evaluation goes on with the record
    intro setup texts
    obtain ⟨w, hw, _, houtcomes⟩ :=
      Session.evaluateAll_over (w := Session.ledger setup) rfl texts
    refine ⟨w.heap, ?_, houtcomes⟩
    rw [← hw]
    exact w.bound

/-- A list that holds not-a-number, a procedure and a list is identical to itself and not equal in
content, but structurally equal; the empty list does not equal nil. -/
theorem isEqual_equivalence_nan :
    let items : List Value := [.number .nan, .builtin (.primitive .car), .list 1 []]
    let v := Value.list 0 items
    v.isIdentical v = true ∧ v.same v = false ∧ v.isEqual v = true ∧
      (Value.list 1 []).isEqual .nil = false := by
  intro items v
  obtain ⟨_, _, _, _, hother, _, hidentical, _⟩ := isEqual_equivalence
  let heap : Heap := fun i => if i = 0 then some items else some []
  have hv : v.Over heap := ⟨rfl, trivial, trivial, ⟨rfl, trivial⟩, trivial⟩
  exact ⟨rfl, rfl, hidentical heap v v hv hv rfl, (hother 1 [] .nil fun _ _ => Value.noConfusion).1⟩

end SmallScheme
