import SmallScheme.Proofs.Store
import SmallScheme.Proofs.Transfer

/-! Simulation: evaluation commutes with renaming.

Two stores match when one is the other with its identities and scopes renamed and both go on to hand
out corresponding ones. From matching stores, an evaluation that draws no random number and does not
nest too deep has the same course in both; the second may nest deeper than the first. -/
namespace SmallScheme

/-- One store is the other up to a renaming, apart from the values shown before. -/
structure Store.Matches (ρ : Renaming) (old : List Value × List Value) (a b : Store) : Prop where
  identity : ∀ k, ρ.identity (a.nextIdentity + k) = b.nextIdentity + k
  scope : ∀ k, ρ.scope ⟨a.scopes.size + k⟩ = ⟨b.scopes.size + k⟩
  present : ∀ s, s.index < a.scopes.size → (ρ.scope s).index < b.scopes.size
  get : ∀ s name, b.get? (ρ.scope s) name = (a.get? s name).map (Value.rename ρ)
  shown : ∃ vs, a.shown.toList = old.1 ++ vs ∧ b.shown.toList = old.2 ++ vs.map (Value.rename ρ)

theorem Bindings.overlay_rename (ρ : Renaming) {b b' : Bindings}
    (h : ∀ name : String, b'[name]? = b[name]?.map (Value.rename ρ)) (more : List (String × Value))
    (name : String) :
    (b'.overlay (renameBindings ρ more))[name]? = ((b.overlay more)[name]?).map (Value.rename ρ) := by
  induction more generalizing b b' with
  | nil => exact h name
  | cons p more ih =>
    refine @ih (b.insert p.1 p.2) (b'.insert p.1 (p.2.rename ρ)) ?_
    intro key
    rw [Bindings.getElem?_insert, Bindings.getElem?_insert, h key]
    split <;> rfl

namespace Store.Matches
variable {ρ : Renaming} {old : List Value × List Value} {a b : Store}

theorem contains (h : a.Matches ρ old b) (s : ScopeId) (name : String) :
    b.contains (ρ.scope s) name = a.contains s name := by
  rw [contains_eq, contains_eq, h.get, Option.isSome_map]

theorem index_lt_iff (h : a.Matches ρ old b) (s : ScopeId) :
    (ρ.scope s).index < b.scopes.size ↔ s.index < a.scopes.size := by
  constructor
  · intro hlt
    refine Nat.lt_of_not_le fun hge => ?_
    -- a scope that is still to come corresponds to one that is still to come
    have hs := h.scope (s.index - a.scopes.size)
    rw [Nat.add_sub_cancel' hge] at hs
    rw [hs] at hlt
    exact absurd hlt (Nat.not_lt.mpr (Nat.le_add_right ..))
  · exact h.present s

theorem index_eq_iff (h : a.Matches ρ old b) (s : ScopeId) :
    (ρ.scope s).index = b.scopes.size ↔ s.index = a.scopes.size := by
  have h0 : ρ.scope ⟨a.scopes.size⟩ = ⟨b.scopes.size⟩ := h.scope 0
  constructor
  · intro he
    have hs : ρ.scope s = ρ.scope ⟨a.scopes.size⟩ := by
      rw [h0]
      exact ScopeId.index_injective he
    rw [ρ.scope_injective hs]
  · intro he
    have hs : s = ⟨a.scopes.size⟩ := ScopeId.index_injective he
    rw [hs, h0]

theorem identities (h : a.Matches ρ old b) (n : Nat) :
    Matches ρ old { a with nextIdentity := a.nextIdentity + n }
      { b with nextIdentity := b.nextIdentity + n } where
  identity k := by
    have hk := h.identity (n + k)
    rwa [← Nat.add_assoc, ← Nat.add_assoc] at hk
  scope := h.scope
  present := h.present
  get := h.get
  shown := h.shown

theorem extend (h : a.Matches ρ old b) (s : ScopeId) (more : List (String × Value)) :
    Matches ρ old (a.extend s more).2 (b.extend (ρ.scope s) (renameBindings ρ more)).2 where
  identity := h.identity
  scope k := by
    change ρ.scope ⟨(a.scopes.push _).size + k⟩ = ⟨(b.scopes.push _).size + k⟩
    have hk := h.scope (1 + k)
    rwa [← Nat.add_assoc, ← Nat.add_assoc, ← Array.size_push, ← Array.size_push] at hk
  present t ht := by
    change t.index < (a.scopes.push _).size at ht
    change (ρ.scope t).index < (b.scopes.push _).size
    rw [Array.size_push] at ht ⊢
    have hlt := h.index_lt_iff t
    have heq := h.index_eq_iff t
    omega
  get t name := by
    rw [get?_extend, get?_extend]
    -- the new scope of one store corresponds to the new scope of the other
    by_cases ht : t.index = a.scopes.size
    · rw [if_pos ht, if_pos ((h.index_eq_iff t).mpr ht)]
      exact Bindings.overlay_rename ρ (h.get s) more name
    · rw [if_neg ht, if_neg fun he => ht ((h.index_eq_iff t).mp he)]
      exact h.get t name
  shown := h.shown

theorem define (h : a.Matches ρ old b) (s : ScopeId) (key : String) (v : Value) :
    Matches ρ old (a.define s key v) (b.define (ρ.scope s) key (v.rename ρ)) where
  identity := h.identity
  scope k := by
    change ρ.scope ⟨(a.scopes.modify _ _).size + k⟩ = ⟨(b.scopes.modify _ _).size + k⟩
    rw [Array.size_modify, Array.size_modify]
    exact h.scope k
  present t ht := by
    change t.index < (a.scopes.modify _ _).size at ht
    change (ρ.scope t).index < (b.scopes.modify _ _).size
    rw [Array.size_modify] at ht ⊢
    exact h.present t ht
  get t name := by
    simp only [get?_define, h.get, h.index_lt_iff, ρ.scope_injective.eq_iff]
    split <;> rfl
  shown := h.shown

theorem display (h : a.Matches ρ old b) (v : Value) :
    Matches ρ old { a with shown := a.shown.push v } { b with shown := b.shown.push (v.rename ρ) } where
  identity := h.identity
  scope := h.scope
  present := h.present
  get := h.get
  shown := by
    obtain ⟨vs, ha, hb⟩ := h.shown
    refine ⟨vs ++ [v], ?_, ?_⟩
    · rw [Array.toList_push, ha, List.append_assoc]
    · rw [Array.toList_push, hb, List.map_append, List.append_assoc]
      rfl

end Store.Matches

/-- From matching stores, `q` has the course of `p`: the stores match again after them, and the
results correspond under `f`. This is promised of runs that draw nothing and do not nest too deep;
that draws are never taken back is promised of all. -/
structure Action.Simulates {α β : Type} (ρ : Renaming) (old : List Value × List Value) (f : α → β)
    (p : Action α) (q : Action β) : Prop where
  draws_le : ∀ a, a.draws ≤ (p.perform a).2.draws
  course : ∀ a b, Store.Matches ρ old a b → (p.perform a).2.draws = a.draws →
    (p.perform a).1 ≠ .error .tooDeep →
      Store.Matches ρ old (p.perform a).2 (q.perform b).2 ∧ (q.perform b).2.draws = b.draws ∧
        (q.perform b).1 = (p.perform a).1.map f

namespace Simulation
variable {ρ : Renaming} {old : List Value × List Value} {α β γ δ : Type}
open SmallScheme.Action (Simulates)

theorem sim_pure {f : α → β} {x : α} {y : β} (h : y = f x) :
    Simulates ρ old f (pure x) (pure y) where
  draws_le _ := Nat.le_refl _
  course a b hab _ _ := ⟨hab, rfl, by rw [h]; rfl⟩

theorem sim_throw {f : α → β} {e e' : Error} (h : e' = e) :
    Simulates ρ old f (throw e) (throw e') where
  draws_le _ := Nat.le_refl _
  course a b hab _ _ := ⟨hab, rfl, by rw [h]; rfl⟩

theorem sim_bind {f : α → β} {g : γ → δ} {p : Action α} {q : Action β} {k : α → Action γ}
    {l : β → Action δ} (hp : Simulates ρ old f p q)
    (hk : ∀ x, Simulates ρ old g (k x) (l (f x))) : Simulates ρ old g (p >>= k) (q >>= l) where
  draws_le a := by
    have h1 := hp.draws_le a
    rw [Action.perform_bind]
    rcases hpa : p.perform a with ⟨r, a1⟩
    rw [hpa] at h1
    cases r with
    | error e => exact h1
    | ok x => exact Nat.le_trans h1 ((hk x).draws_le a1)
  course a b hab := by
    have h1 := hp.draws_le a
    have hsim := hp.course a b hab
    rw [Action.perform_bind, Action.perform_bind]
    rcases hpa : p.perform a with ⟨r, a1⟩
    rcases hqb : q.perform b with ⟨r', b1⟩
    rw [hpa] at h1
    rw [hpa, hqb] at hsim
    cases r with
    | error e =>
      intro hd hne
      have hne' : (Except.error e : Except Error α) ≠ .error .tooDeep :=
        fun h => hne (congrArg Except.error (Except.error.inj h))
      obtain ⟨hm, hd', hr⟩ := hsim hd hne'
      cases hr
      exact ⟨hm, hd', rfl⟩
    | ok x =>
      intro hd hne
      -- what the whole draws is what both parts draw, so each part draws nothing
      have h2 := (hk x).draws_le a1
      dsimp only at h1 h2 hd
      obtain ⟨hm, hd', hr⟩ := hsim (by dsimp only; omega) nofun
      cases hr
      dsimp only at hm hd'
      have hd2 : ((k x).perform a1).2.draws = a1.draws := by omega
      obtain ⟨hm2, hd2', hr2⟩ := (hk x).course a1 b1 hm hd2 hne
      exact ⟨hm2, hd2'.trans hd', hr2⟩

/-- An error may be changed on its way, but not so that running too deep is hidden. -/
theorem sim_rethrow {f : α → β} {p : Action α} {q : Action β} {g : Error → Error}
    (hg : g .tooDeep = .tooDeep) (hp : Simulates ρ old f p q) :
    Simulates ρ old f (tryCatch p fun e => throw (g e)) (tryCatch q fun e => throw (g e)) where
  draws_le a := by
    have h1 := hp.draws_le a
    rw [Action.perform_tryCatch]
    rcases hpa : p.perform a with ⟨r, a1⟩
    rw [hpa] at h1
    cases r <;> exact h1
  course a b hab := by
    have hsim := hp.course a b hab
    rw [Action.perform_tryCatch, Action.perform_tryCatch]
    rcases hpa : p.perform a with ⟨r, a1⟩
    rcases hqb : q.perform b with ⟨r', b1⟩
    rw [hpa, hqb] at hsim
    cases r with
    | error e =>
      intro hd hne
      -- nothing is promised of runs that nest too deep, so those must show through
      have hne' : e ≠ .tooDeep := by
        rintro rfl
        exact hne (congrArg Except.error hg)
      obtain ⟨hm, hd', hr⟩ := hsim hd (fun h => hne' (Except.error.inj h))
      cases hr
      exact ⟨hm, hd', rfl⟩
    | ok x =>
      intro hd hne
      obtain ⟨hm, hd', hr⟩ := hsim hd nofun
      cases hr
      exact ⟨hm, hd', rfl⟩

theorem sim_identity :
    Simulates ρ old ρ.identity Action.freshIdentity Action.freshIdentity where
  draws_le _ := Nat.le_refl _
  course _ _ hab _ _ := ⟨hab.identities 1, rfl, congrArg Except.ok (hab.identity 0).symm⟩

theorem sim_extend (s : ScopeId) (more : List (String × Value)) :
    Simulates ρ old ρ.scope (Action.extend s more)
      (Action.extend (ρ.scope s) (renameBindings ρ more)) where
  draws_le _ := Nat.le_refl _
  course a b hab _ _ := by
    refine ⟨hab.extend s more, rfl, ?_⟩
    exact congrArg Except.ok (hab.scope 0).symm

theorem sim_define (s : ScopeId) (name : String) (v : Value) :
    Simulates ρ old id (Action.define s name v)
      (Action.define (ρ.scope s) name (v.rename ρ)) where
  draws_le _ := Nat.le_refl _
  course _ _ hab _ _ := ⟨hab.define s name v, rfl, rfl⟩

theorem sim_display (v : Value) :
    Simulates ρ old id (Action.display v) (Action.display (v.rename ρ)) where
  draws_le _ := Nat.le_refl _
  course _ _ hab _ _ := ⟨hab.display v, rfl, rfl⟩

/-- A draw is a run that nothing is promised of. -/
theorem sim_draw : Simulates ρ old id Action.draw Action.draw where
  draws_le a := Nat.le_succ a.draws
  course a _ _ hd _ := absurd hd (Nat.succ_ne_self a.draws)

theorem sim_lookup (s : ScopeId) (name : String) :
    Simulates ρ old (Value.rename ρ) (Action.lookup s name) (Action.lookup (ρ.scope s) name) where
  draws_le a := by
    rw [Action.perform_lookup]
    split <;> exact Nat.le_refl _
  course a b hab _ _ := by
    rw [Action.perform_lookup, Action.perform_lookup, hab.get]
    cases a.get? s name <;> exact ⟨hab, rfl, rfl⟩

/-- Whether a name is bound is the same in both stores. -/
theorem sim_ifBound {f : α → β} (s : ScopeId) (name : String) {p p' : Action α} {q q' : Action β}
    (hp : Simulates ρ old f p q) (hp' : Simulates ρ old f p' q') :
    Simulates ρ old f (do if (← get).contains s name then p else p')
      (do if (← get).contains (ρ.scope s) name then q else q') where
  draws_le a := by
    rw [Action.perform_bind, Action.perform_get]
    dsimp only
    split
    · exact hp.draws_le a
    · exact hp'.draws_le a
  course a b hab := by
    rw [Action.perform_bind, Action.perform_bind, Action.perform_get, Action.perform_get]
    dsimp only
    rw [hab.contains]
    split
    · exact hp.course a b hab
    · exact hp'.course a b hab

/-- The course of one action in the other as a relation between actions. -/
def course (ρ : Renaming) (old : List Value × List Value) : Transfer ρ where
  Rel := Simulates ρ old
  rel_pure := sim_pure
  rel_throw := sim_throw
  rel_bind := sim_bind
  rel_rethrow := sim_rethrow
  rel_identity := sim_identity
  rel_extend := sim_extend
  rel_define := sim_define
  rel_display := sim_display
  rel_draw := sim_draw
  rel_lookup := sim_lookup
  rel_ifBound := sim_ifBound

/-- Evaluation commutes with renaming, and the second run may nest deeper than the first. -/
theorem sim_perform (ρ : Renaming) (old : List Value × List Value) {depth depth' : Nat}
    (hd : depth ≤ depth') (t : Task) :
    Simulates ρ old (Value.rename ρ) (t.perform depth) ((t.rename ρ).perform depth') := by
  induction depth generalizing depth' t with
  | zero =>
    -- at depth zero every run is too deep, and nothing is promised of it
    exact ⟨fun _ => Nat.le_refl _, fun _ _ _ _ hne => absurd rfl hne⟩
  | succ depth ih =>
    obtain ⟨depth', rfl⟩ : ∃ k, depth' = k + 1 := ⟨depth' - 1, by omega⟩
    exact Transfer.rel_perform_succ (T := course ρ old) (ih (Nat.le_of_succ_le_succ hd)) t

end Simulation

end SmallScheme
