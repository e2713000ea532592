import SmallScheme.Builtin.Reply

/-! Values whose identities and scopes are among given ones. This is one of the properties of values
that lists hand down to their items, and what a primitive answers has every such property that its
arguments have. -/
namespace SmallScheme

namespace Value

mutual
/-- Induction on the nesting of values: a property holds of lists if it holds of their items, of
closures if it holds of their bodies, and of all other values. -/
@[elab_as_elim]
theorem nested {P : Value → Prop} (list : ∀ i items, (∀ v ∈ items, P v) → P (.list i items))
    (closure : ∀ i params body s, P body → P (.closure i params body s))
    (atom : ∀ v, (∀ i items, v ≠ .list i items) → (∀ i params body s, v ≠ .closure i params body s) →
      P v) : (v : Value) → P v
  | .list i items => list i items (nestedAll list closure atom items)
  | .closure i params body s => closure i params body s (nested list closure atom body)
  | .number x => atom (.number x) nofun nofun
  | .bool b => atom (.bool b) nofun nofun
  | .string s => atom (.string s) nofun nofun
  | .symbol name => atom (.symbol name) nofun nofun
  | .nil => atom .nil nofun nofun
  | .unspecified => atom .unspecified nofun nofun
  | .builtin op => atom (.builtin op) nofun nofun
theorem nestedAll {P : Value → Prop} (list : ∀ i items, (∀ v ∈ items, P v) → P (.list i items))
    (closure : ∀ i params body s, P body → P (.closure i params body s))
    (atom : ∀ v, (∀ i items, v ≠ .list i items) → (∀ i params body s, v ≠ .closure i params body s) →
      P v) : (vs : List Value) → ∀ v ∈ vs, P v
  | [] => nofun
  | v :: vs => List.forall_mem_cons.mpr
      ⟨nested list closure atom v, nestedAll list closure atom vs⟩
end

end Value

mutual
/-- Every identity in a value is in `ids`, and every scope that a closure in it refers to is in
`scopes`. -/
def Value.Within (ids : Nat → Prop) (scopes : ScopeId → Prop) : Value → Prop
  | .list i items => ids i ∧ Value.WithinAll ids scopes items
  | .closure i _ body s => ids i ∧ body.Within ids scopes ∧ scopes s
  | _ => True
/-- Every one of several values is within `ids` and `scopes`. -/
def Value.WithinAll (ids : Nat → Prop) (scopes : ScopeId → Prop) : List Value → Prop
  | [] => True
  | v :: vs => v.Within ids scopes ∧ Value.WithinAll ids scopes vs
end

namespace Value
variable {ids ids' : Nat → Prop} {scopes scopes' : ScopeId → Prop}

theorem withinAll_iff {vs : List Value} :
    WithinAll ids scopes vs ↔ ∀ v ∈ vs, v.Within ids scopes := by
  induction vs with
  | nil => simp [WithinAll]
  | cons v vs ih => simp [WithinAll, ih]

theorem within_list {i : Nat} {items : List Value} :
    (list i items).Within ids scopes ↔ ids i ∧ ∀ v ∈ items, v.Within ids scopes := by
  rw [Within, withinAll_iff]

theorem within_atom {v : Value} (hl : ∀ i items, v ≠ list i items)
    (hc : ∀ i params body s, v ≠ closure i params body s) : v.Within ids scopes := by
  cases v with
  | list i items => exact absurd rfl (hl i items)
  | closure i params body s => exact absurd rfl (hc i params body s)
  | _ => trivial

theorem Within.mono {v : Value} (h : v.Within ids scopes) (hi : ∀ i, ids i → ids' i)
    (hs : ∀ s, scopes s → scopes' s) : v.Within ids' scopes' := by
  induction v using Value.nested with
  | list i items ih =>
    obtain ⟨hid, hitems⟩ := within_list.mp h
    exact within_list.mpr ⟨hi i hid, fun v hv => ih v hv (hitems v hv)⟩
  | closure i params body s ih => exact ⟨hi i h.1, ih h.2.1, hs s h.2.2⟩
  | atom v hl hc => exact within_atom hl hc

theorem within_true (v : Value) : v.Within (fun _ => True) (fun _ => True) := by
  induction v using Value.nested with
  | list i items ih => exact within_list.mpr ⟨trivial, ih⟩
  | closure i params body s ih => exact ⟨trivial, ih, trivial⟩
  | atom v hl hc => exact within_atom hl hc

/-- A property that all values but lists and closures have, and that lists hand down to their items.
-/
structure Hereditary (P : Value → Prop) : Prop where
  atom : ∀ v, (∀ i items, v ≠ list i items) → (∀ i params body s, v ≠ closure i params body s) → P v
  items : ∀ {i items}, P (list i items) → ∀ v ∈ items, P v

theorem within_hereditary : Hereditary (Within ids scopes) where
  atom _ := within_atom
  items h := (within_list.mp h).2

section
variable {P : Value → Prop} (hP : Hereditary P)
include hP

theorem Hereditary.number (x : Binary64) : P (.number x) := hP.atom _ nofun nofun

theorem Hereditary.bool (b : Bool) : P (.bool b) := hP.atom _ nofun nofun

theorem Hereditary.string (s : String) : P (.string s) := hP.atom _ nofun nofun

theorem Hereditary.symbol (name : String) : P (.symbol name) := hP.atom _ nofun nofun

theorem Hereditary.nil : P .nil := hP.atom _ nofun nofun

theorem Hereditary.unspecified : P .unspecified := hP.atom _ nofun nofun

theorem Hereditary.items? {v : Value} {items : List Value} (hv : P v) (h : v.items? = some items) :
    ∀ w ∈ items, P w := by
  unfold Value.items? at h
  split at h
  · cases h
    exact hP.items hv
  · cases h
    simp
  · cases h

end

end Value

open Value

/-- Every value in a reply has the property. -/
def Reply.All (P : Value → Prop) : Reply → Prop
  | .value v => P v
  | .fresh items => ∀ v ∈ items, P v

namespace Primitive

theorem bind_eq_ok {α β : Type} {x : Except Error α} {f : α → Except Error β} {b : β} :
    (x >>= f) = .ok b ↔ ∃ a, x = .ok a ∧ f a = .ok b := by
  cases x with
  | error e =>
    constructor
    · intro h
      cases h
    · rintro ⟨a, h, -⟩
      cases h
  | ok a =>
    constructor
    · intro h
      exact ⟨a, rfl, h⟩
    · rintro ⟨b, h, hf⟩
      cases h
      exact hf

theorem pure_eq_ok {α : Type} {a b : α} : (pure a : Except Error α) = .ok b ↔ a = b := by
  constructor
  · intro h; cases h; rfl
  · rintro rfl; rfl

theorem wrongCount_ne_ok {n : Nat} {args : List Value} {r : Reply} : wrongCount n args ≠ .ok r := by
  intro h
  cases h

section
variable {P : Value → Prop} (hP : Hereditary P)
include hP

theorem items_all {op : String} {v : Value} {vs : List Value} (hv : P v) (h : items op v = .ok vs) :
    ∀ w ∈ vs, P w := by
  unfold items at h
  split at h
  next hi => cases h; exact hP.items? hv hi
  next => cases h

theorem spliced_all {v : Value} (hv : P v) : ∀ w ∈ spliced v, P w := by
  unfold spliced
  split
  · exact hP.items hv
  · simp
  · simpa using hv

/-- The first argument that `test` accepts, the last argument, or an atom. -/
theorem selected_all {args : List Value} (hargs : ∀ v ∈ args, P v) (test : Value → Bool)
    (b : Bool) : P (((args.find? test).or args.getLast?).getD (.bool b)) := by
  cases hf : args.find? test with
  | some v => exact hargs v (List.mem_of_find?_eq_some hf)
  | none =>
    cases hl : args.getLast? with
    | some v => exact hargs v (List.mem_of_getLast? hl)
    | none => exact hP.bool b

/-- What a primitive answers with comes from its arguments. -/
theorem reply_all {p : Primitive} {args : List Value} {r : Reply} (hargs : ∀ v ∈ args, P v)
    (h : p.reply args = .ok r) : r.All P := by
  unfold reply at h
  split at h
  all_goals
    simp only [foldNumbers, foldNumbersFrom, bind_eq_ok, pure_eq_ok, wrongCount_ne_ok,
      Except.ok.injEq, reduceCtorEq] at h
  -- most primitives answer with a number or a boolean
  all_goals try (subst h; exact hP.bool _)
  all_goals try (obtain ⟨_, _, rfl⟩ := h; first | exact hP.bool _ | exact hP.number _)
  all_goals try (obtain ⟨_, _, _, _, rfl⟩ := h; first | exact hP.bool _ | exact hP.number _)
  -- `or` and `and` answer with an argument
  · subst h
    exact selected_all hP hargs _ _
  · subst h
    exact selected_all hP hargs _ _
  -- `list` with all of them
  · subst h
    exact hargs
  -- the others with items of one: `car`, `cdr`, `cons`, `append` and `reverse`
  · next v =>
      obtain ⟨vs, hi, rfl⟩ := h
      have hvs := items_all hP (hargs v (by simp)) hi
      cases vs with
      | nil => exact hP.nil
      | cons w vs => exact hvs w (by simp)
  · next v =>
      obtain ⟨vs, hi, hr⟩ := h
      have hvs := items_all hP (hargs v (by simp)) hi
      cases vs with
      | nil =>
        cases hr
        exact hP.nil
      | cons w vs =>
        cases hr
        exact fun u hu => hvs u (by simp [hu])
  · subst h
    simp only [List.forall_mem_cons] at hargs
    exact List.forall_mem_cons.mpr ⟨hargs.1, spliced_all hP hargs.2.1⟩
  · subst h
    intro w hw
    obtain ⟨v, hv, hw⟩ := List.mem_flatMap.mp hw
    exact spliced_all hP (hargs v hv) w hw
  · next v =>
      obtain ⟨vs, hi, rfl⟩ := h
      have hvs := items_all hP (hargs v (by simp)) hi
      exact fun u hu => hvs u (by simpa using hu)

end

end Primitive

end SmallScheme
