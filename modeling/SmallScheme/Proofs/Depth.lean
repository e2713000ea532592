import SmallScheme.Proofs.Store
import SmallScheme.Proofs.Transfer

/-! Depth: a limit to nesting decides whether evaluation comes to an end, and never what it comes to.

Evaluation that does not nest too deep has the same outcome at every greater depth. So a computation
that is given its depth has one outcome or none, and two of them can be compared without a word on how
deep each has to nest. -/
namespace SmallScheme

namespace Action
variable {α β γ δ : Type}

/-- Unless `p` nests too deep and leaves a store that is lost, `q` does what `p` does, with a result
that corresponds under `f`. -/
def Follows (lost : Store → Prop) (f : α → β) (p : Action α) (q : Action β) : Prop :=
  ∀ st, ((p.perform st).1 = .error .tooDeep → ¬ lost (p.perform st).2) →
    q.perform st = ((p.perform st).1.map f, (p.perform st).2)

/-- Where `p` does not nest too deep, `q` does what `p` does. -/
abbrev Deepens (p q : Action α) : Prop := Follows (fun _ => True) id p q

variable {lost : Store → Prop}

theorem Follows.self (p : Action α) : Follows lost id p p := by
  intro st _
  rw [Except.map_id]
  rfl

theorem Follows.eq {p q : Action α} (h : Follows lost id p q) {st : Store}
    (hkept : (p.perform st).1 = .error .tooDeep → ¬ lost (p.perform st).2) :
    q.perform st = p.perform st := by
  rw [h st hkept, Except.map_id]
  rfl

theorem Deepens.eq {p q : Action α} (h : Deepens p q) {st : Store}
    (hdone : (p.perform st).1 ≠ .error .tooDeep) : q.perform st = p.perform st :=
  Follows.eq h fun herror => absurd herror hdone

theorem Follows.bind {f : α → β} {g : γ → δ} {p : Action α} {q : Action β} {k : α → Action γ}
    {l : β → Action δ} (hp : Follows lost f p q) (hk : ∀ x, Follows lost g (k x) (l (f x))) :
    Follows lost g (p >>= k) (q >>= l) := by
  intro st hkept
  have hfirst := hp st
  rw [perform_bind] at hkept ⊢
  rcases hpst : p.perform st with ⟨e | x, st1⟩
  · -- the first part ends as the whole does, with the same error in the same store
    rw [hpst] at hkept hfirst
    have hkept1 : (Except.error e : Except Error α) = .error .tooDeep → ¬ lost st1 :=
      fun h => hkept (congrArg Except.error (Except.error.inj h))
    rw [perform_bind, hfirst hkept1, hpst]
    rfl
  · rw [hpst] at hkept hfirst
    rw [perform_bind, hfirst nofun, hpst]
    exact hk x st1 hkept

theorem Follows.rethrow {f : α → β} {p : Action α} {q : Action β} {g : Error → Error}
    (hg : g .tooDeep = .tooDeep) (hp : Follows lost f p q) :
    Follows lost f (tryCatch p fun e => throw (g e)) (tryCatch q fun e => throw (g e)) := by
  intro st hkept
  have hfirst := hp st
  rw [perform_tryCatch] at hkept ⊢
  rcases hpst : p.perform st with ⟨e | x, st1⟩
  · rw [hpst] at hkept hfirst
    have hkept1 : (Except.error e : Except Error α) = .error .tooDeep → ¬ lost st1 := by
      intro h
      cases h
      exact hkept (congrArg Except.error hg)
    rw [perform_tryCatch, hfirst hkept1, hpst]
    rfl
  · rw [hpst] at hfirst
    rw [perform_tryCatch, hfirst nofun, hpst]
    rfl

theorem Follows.ifBound {f : α → β} (s : ScopeId) (name : String) {p p' : Action α}
    {q q' : Action β} (hp : Follows lost f p q) (hp' : Follows lost f p' q') :
    Follows lost f (do if (← get).contains s name then p else p')
      (do if (← get).contains s name then q else q') := by
  intro st
  rw [perform_bind, perform_bind, perform_get]
  dsimp only
  split
  · exact hp st
  · exact hp' st

end Action

/-- Following as a relation between actions. -/
def following (lost : Store → Prop) : Transfer .same where
  Rel := Action.Follows lost
  rel_pure h st _ := by rw [h]; rfl
  rel_throw h st _ := by rw [h]; rfl
  rel_bind := Action.Follows.bind
  rel_rethrow := Action.Follows.rethrow
  rel_identity := .self _
  rel_extend s more := by
    rw [renameBindings_eq fun p _ => congrFun Value.rename_same p.2]
    exact .self _
  rel_define s name v := by
    rw [Value.rename_same]
    exact .self _
  rel_display v := by
    rw [Value.rename_same]
    exact .self _
  rel_draw := .self _
  rel_lookup s name := by
    rw [Value.rename_same]
    exact .self _
  rel_ifBound := Action.Follows.ifBound

/-- What does not nest too deep at one depth does the same at every greater depth. -/
theorem Task.perform_deepens {depth depth' : Nat} (hd : depth ≤ depth') (t : Task) :
    Action.Deepens (t.perform depth) (t.perform depth') := by
  have h : (following fun _ => True).Rel (Value.rename .same) (t.perform depth)
      ((t.rename .same).perform depth') := by
    induction depth generalizing depth' t with
    | zero => exact fun st hdone => absurd trivial (hdone rfl)
    | succ depth ih =>
      obtain ⟨depth', rfl⟩ : ∃ k, depth' = k + 1 := ⟨depth' - 1, by omega⟩
      exact Transfer.rel_perform_succ (T := following _) (ih (Nat.le_of_succ_le_succ hd)) t
  rwa [Value.rename_same, Task.rename_same] at h

namespace Action
variable {α β : Type}

/-- The computation, which is given its depth, comes to an end with this outcome. -/
def Ends (a : Nat → Action α) (st : Store) (out : Except Error α × Store) : Prop :=
  out.1 ≠ .error .tooDeep ∧ ∃ depth, (a depth).perform st = out

/-- A greater depth changes nothing but whether the computation nests too deep. -/
def Deepening (a : Nat → Action α) : Prop :=
  ∀ ⦃depth depth' : Nat⦄, depth ≤ depth' → Deepens (a depth) (a depth')

theorem deepening_const (p : Action α) : Deepening fun _ => p := fun _ _ _ => .self p

theorem deepening_eval (e : Value) (s : ScopeId) : Deepening fun depth => eval depth e s :=
  fun _ _ hd => Task.perform_deepens hd (.eval e s)

theorem Deepening.bind {a : Nat → Action α} {k : α → Nat → Action β} (ha : Deepening a)
    (hk : ∀ x, Deepening (k x)) : Deepening fun depth => a depth >>= fun x => k x depth :=
  fun _ _ hd => Follows.bind (ha hd) fun x => hk x hd

theorem deepening_runAll (s : ScopeId) (es : List Value) :
    Deepening fun depth => SpecialForm.runAll (eval depth) s es := by
  induction es with
  | nil => exact deepening_const _
  | cons e es ih =>
    cases es with
    | nil => exact deepening_eval e s
    | cons e' es => exact (deepening_eval e s).bind fun _ => ih

theorem deepening_runClauses (s : ScopeId) (clauses : List Value) :
    Deepening fun depth => SpecialForm.runClauses (eval depth) s clauses := by
  intro depth depth' hd
  have heval (e : Value) (s : ScopeId) : (following fun _ => True).Rel (Value.rename .same)
      (eval depth e s) (eval depth' (e.rename .same) (Renaming.same.scope s)) := by
    rw [Value.rename_same]
    exact deepening_eval e s hd
  have h := Transfer.rel_runClauses (T := following _) heval s clauses
  rwa [Value.rename_same, List.map_id] at h

theorem deepening_runBindings (s : ScopeId) (pairs : List (String × Value)) :
    Deepening fun depth => SpecialForm.runBindings (eval depth) s pairs := by
  induction pairs with
  | nil => exact deepening_const _
  | cons p pairs ih =>
    refine (deepening_eval p.2 s).bind fun v => ?_
    exact ih.bind fun vs => deepening_const _

theorem deepening_runChain (s : ScopeId) (pairs : List (String × Value)) :
    Deepening fun depth => SpecialForm.runChain (eval depth) s pairs := by
  induction pairs generalizing s with
  | nil => exact deepening_const _
  | cons p pairs ih =>
    refine (deepening_eval p.2 s).bind fun v => ?_
    exact (deepening_const _).bind fun inner => ih inner

variable {a b : Nat → Action α} {st : Store} {out out' : Except Error α × Store}

/-- An outcome at one depth is the outcome at every greater depth. -/
theorem Ends.at_depth (ha : Deepening a) (h : Ends a st out) :
    ∃ depth, ∀ depth', depth ≤ depth' → (a depth').perform st = out := by
  obtain ⟨hdone, depth, rfl⟩ := h
  exact ⟨depth, fun depth' hd => (ha hd).eq hdone⟩

/-- A computation has one outcome at most. -/
theorem Ends.unique (ha : Deepening a) (h : Ends a st out) (h' : Ends a st out') : out = out' := by
  obtain ⟨depth, hout⟩ := h.at_depth ha
  obtain ⟨depth', hout'⟩ := h'.at_depth ha
  calc out = (a (max depth depth')).perform st := (hout _ (Nat.le_max_left ..)).symm
    _ = out' := hout' _ (Nat.le_max_right ..)

/-- If each run of one computation is deepened by some run of the other then the outcome passes on. -/
theorem Ends.deepen (h : Ends a st out) (hab : ∀ depth, ∃ depth', Deepens (a depth) (b depth')) :
    Ends b st out := by
  obtain ⟨hdone, depth, rfl⟩ := h
  obtain ⟨depth', hd⟩ := hab depth
  exact ⟨hdone, depth', hd.eq hdone⟩

theorem ends_succ (ha : Deepening a) : Ends (fun depth => a (depth + 1)) st out ↔ Ends a st out := by
  constructor
  · rintro ⟨hdone, depth, hout⟩
    exact ⟨hdone, depth + 1, hout⟩
  · intro h
    exact h.deepen fun depth => ⟨depth, ha (Nat.le_succ depth)⟩

/-- Of two computations in a row the first fails, or it ends with a value and the second goes on. -/
theorem ends_bind {a : Nat → Action α} {k : α → Nat → Action β} {out : Except Error β × Store}
    (ha : Deepening a) (hk : ∀ x, Deepening (k x)) :
    Ends (fun depth => a depth >>= fun x => k x depth) st out ↔
      (∃ e st', Ends a st (.error e, st') ∧ out = (.error e, st')) ∨
        ∃ x st', Ends a st (.ok x, st') ∧ Ends (k x) st' out := by
  constructor
  · rintro ⟨hdone, depth, hout⟩
    rw [perform_bind] at hout
    rcases hfirst : (a depth).perform st with ⟨e | x, st1⟩
    · rw [hfirst] at hout
      subst hout
      refine Or.inl ⟨e, st1, ⟨?_, depth, hfirst⟩, rfl⟩
      exact fun h => hdone (congrArg Except.error (Except.error.inj h))
    · rw [hfirst] at hout
      exact Or.inr ⟨x, st1, ⟨nofun, depth, hfirst⟩, hdone, depth, hout⟩
  · rintro (⟨e, st1, ⟨hdone, depth, hfirst⟩, rfl⟩ | ⟨x, st1, hfirst, hsecond⟩)
    · refine ⟨fun h => hdone (congrArg Except.error (Except.error.inj h)), depth, ?_⟩
      rw [perform_bind, hfirst]
    · -- both parts end at a depth that is great enough for either
      obtain ⟨depth, hfirst⟩ := hfirst.at_depth ha
      obtain ⟨depth', hout⟩ := hsecond.at_depth (hk x)
      refine ⟨hsecond.1, max depth depth', ?_⟩
      rw [perform_bind, hfirst _ (Nat.le_max_left ..)]
      exact hout _ (Nat.le_max_right ..)

theorem ends_bind_congr {a : Nat → Action α} {k l : α → Nat → Action β}
    {out : Except Error β × Store} (ha : Deepening a) (hk : ∀ x, Deepening (k x))
    (hl : ∀ x, Deepening (l x)) (h : ∀ x st', Ends (k x) st' out ↔ Ends (l x) st' out) :
    Ends (fun depth => a depth >>= fun x => k x depth) st out ↔
      Ends (fun depth => a depth >>= fun x => l x depth) st out := by
  rw [ends_bind ha hk, ends_bind ha hl]
  simp only [h]

end Action

end SmallScheme
