import SmallScheme.Proofs.Lockstep

/-! Concatenation: combinators on two lists in a row.

To combine the items of one list and then those of another is to combine those of the two lists in one.
The procedure may show values and fail, so this is about the order in which it is applied, and that a
failure ends it. For `map` and `filter`, which make a list, the two lists have to be joined, and the two
ways differ in the identities that are used up in between. -/
namespace SmallScheme

namespace Task
variable (below : Task → Action Value) (pick : Value → Value → List Value) (f : Value)

/-- Applies a procedure to items in turn, and takes what `pick` says from each item and its image. -/
def gather : List Value → Action (List Value)
  | [] => return []
  | v :: vs => do
    let w ← below (.apply f [v])
    return pick v w ++ (← gather vs)

theorem gather_append (xs ys : List Value) :
    gather below pick f (xs ++ ys) = (do
      let us ← gather below pick f xs
      return us ++ (← gather below pick f ys)) := by
  induction xs with
  | nil => simp only [List.nil_append, gather, pure_bind, bind_pure]
  | cons v xs ih =>
    simp only [List.cons_append, gather, ih, bind_assoc, pure_bind, List.append_assoc]

theorem accumulate_append (acc : Value) (xs ys : List Value) :
    accumulate below f acc (xs ++ ys) =
      accumulate below f acc xs >>= fun acc => accumulate below f acc ys := by
  induction xs generalizing acc with
  | nil => rw [List.nil_append, accumulate, pure_bind]
  | cons v xs ih => simp only [List.cons_append, accumulate, bind_assoc, ih]

end Task

/-- What `map` and `filter` take from an item and its image: the image, or the item if the image is
true. -/
def Combinator.pick : Combinator → Value → Value → List Value
  | .filter, v, w => if w.isTruthy then [v] else []
  | _, _, w => [w]

namespace Task
variable (below : Task → Action Value) (f : Value)

theorem images_eq_gather (vs : List Value) :
    images below f vs = gather below Combinator.map.pick f vs := by
  induction vs with
  | nil => rfl
  | cons v vs ih =>
    rw [images, gather, ih]
    rfl

theorem keep_eq_gather (vs : List Value) :
    keep below f vs = gather below Combinator.filter.pick f vs := by
  induction vs with
  | nil => rfl
  | cons v vs ih =>
    rw [keep, gather, ih]
    refine bind_congr fun w => bind_congr fun us => ?_
    rw [Combinator.pick]
    split <;> rfl

end Task

/-- Applying a procedure to items in turn succeeds, gives images, and leads from one store to another. -/
inductive AppliesInTurn (depth : Nat) (f : Value) : List Value → Store → List Value → Store → Prop where
  | nil (st : Store) : AppliesInTurn depth f [] st [] st
  | cons {v w : Value} {vs ws : List Value} {st st₁ st' : Store} :
      (apply depth f [v]).perform st = (.ok w, st₁) → AppliesInTurn depth f vs st₁ ws st' →
        AppliesInTurn depth f (v :: vs) st (w :: ws) st'

section
variable {depth : Nat} {pick : Value → Value → List Value} {f : Value} {st st' : Store}

theorem gather_eq_ok_iff {vs us : List Value} :
    (Task.gather (Task.perform depth) pick f vs).perform st = (.ok us, st') ↔
      ∃ ws, AppliesInTurn depth f vs st ws st' ∧ us = (List.zipWith pick vs ws).flatten := by
  induction vs generalizing st st' us with
  | nil =>
    constructor
    · intro h
      cases h
      exact ⟨[], .nil st, rfl⟩
    · rintro ⟨ws, h, rfl⟩
      cases h
      rfl
  | cons v vs ih =>
    rw [Task.gather, Action.perform_bind_eq_ok]
    simp only [Action.perform_bind_eq_ok, ih]
    constructor
    · rintro ⟨w, st₁, hw, rest, st₂, ⟨ws, hws, rfl⟩, h⟩
      cases h
      exact ⟨w :: ws, .cons hw hws, rfl⟩
    · rintro ⟨_, h, rfl⟩
      cases h with
      | cons hw hws => exact ⟨_, _, hw, _, st', ⟨_, hws, rfl⟩, rfl⟩

/-- Items are gathered until the procedure fails, and then the procedure is not applied again. -/
theorem gather_eq_error_iff {vs : List Value} {e : Error} :
    (Task.gather (Task.perform depth) pick f vs).perform st = (.error e, st') ↔
      ∃ before v after ws st₁, vs = before ++ v :: after ∧ AppliesInTurn depth f before st ws st₁ ∧
        (apply depth f [v]).perform st₁ = (.error e, st') := by
  induction vs generalizing st with
  | nil =>
    constructor
    · intro h
      cases h
    · rintro ⟨before, v, after, _, _, h, _⟩
      exact absurd h.symm (List.append_ne_nil_of_right_ne_nil before (List.cons_ne_nil v after))
  | cons u vs ih =>
    rw [Task.gather, Action.perform_bind_eq_error]
    simp only [Action.perform_bind_eq_error, ih]
    constructor
    · -- the first item fails, or a later one does, or putting the results together, which never fails
      rintro (hu | ⟨w, st₁, hw, ⟨before, v, after, ws, st₂, rfl, hws, hv⟩ | ⟨_, _, _, h⟩⟩)
      · exact ⟨[], u, vs, [], st, rfl, .nil st, hu⟩
      · exact ⟨u :: before, v, after, w :: ws, st₂, rfl, .cons hw hws, hv⟩
      · cases h
    · rintro ⟨before, v, after, ws, st₂, hvs, hws, hv⟩
      cases hws with
      | nil =>
        cases hvs
        exact .inl hv
      | cons hw hws =>
        cases hvs
        exact .inr ⟨_, _, hw, .inl ⟨_, v, after, _, st₂, rfl, hws, hv⟩⟩

theorem accumulate_eq_error_iff {acc : Value} {vs : List Value} {e : Error} :
    (Task.accumulate (Task.perform depth) f acc vs).perform st = (.error e, st') ↔
      ∃ before v after acc' st₁, vs = before ++ v :: after ∧
        (Task.accumulate (Task.perform depth) f acc before).perform st = (.ok acc', st₁) ∧
        (apply depth f [acc', v]).perform st₁ = (.error e, st') := by
  induction vs generalizing acc st with
  | nil =>
    constructor
    · intro h
      cases h
    · rintro ⟨before, v, after, _, _, h, _⟩
      exact absurd h.symm (List.append_ne_nil_of_right_ne_nil before (List.cons_ne_nil v after))
  | cons u vs ih =>
    rw [Task.accumulate, Action.perform_bind_eq_error]
    simp only [ih]
    constructor
    · rintro (hu | ⟨w, st₁, hw, before, v, after, acc', st₂, rfl, hacc, hv⟩)
      · exact ⟨[], u, vs, acc, st, rfl, rfl, hu⟩
      · refine ⟨u :: before, v, after, acc', st₂, rfl, ?_, hv⟩
        exact Action.perform_bind_eq_ok.mpr ⟨w, st₁, hw, hacc⟩
    · rintro ⟨before, v, after, acc', st₂, hvs, hacc, hv⟩
      cases before with
      | nil =>
        cases hvs
        cases hacc
        exact .inl hv
      | cons u' before =>
        cases hvs
        obtain ⟨w, st₁, hw, hacc⟩ := Action.perform_bind_eq_ok.mp hacc
        exact .inr ⟨w, st₁, hw, before, v, after, acc', st₂, rfl, hacc, hv⟩

end

/-- A reachable store that has grown, and that has shown more. -/
structure Store.Continues (st s : Store) : Prop where
  reachable : s.Reachable
  grows : st.Grows s
  shown : ∃ vs, s.shown.toList = st.shown.toList ++ vs

/-- Stores are reachable, only grow, and take back nothing of what was shown. -/
def continuing (base : Store) : Discipline where
  __ := reachability
  valid := base.Continues
  get_within hv := reachability.get_within hv.reachable
  identity hv := by
    obtain ⟨hreachable, hstep, hknown⟩ := reachability.identity hv.reachable
    exact ⟨⟨hreachable, reachability.step_trans hv.grows hstep, hv.shown⟩, hstep, hknown⟩
  extend hv hs hm := by
    obtain ⟨hreachable, hstep, hwritable⟩ := reachability.extend hv.reachable hs hm
    exact ⟨⟨hreachable, reachability.step_trans hv.grows hstep, hv.shown⟩, hstep, hwritable⟩
  define hv hs hw := by
    obtain ⟨hreachable, hstep⟩ := reachability.define hv.reachable hs hw
    exact ⟨⟨hreachable, reachability.step_trans hv.grows hstep, hv.shown⟩, hstep⟩
  display {st v} hv hw := by
    obtain ⟨hreachable, hstep⟩ := reachability.display hv.reachable hw
    obtain ⟨vs, hvs⟩ := hv.shown
    refine ⟨⟨hreachable, reachability.step_trans hv.grows hstep, vs ++ [v], ?_⟩, hstep⟩
    rw [Array.toList_push, hvs, List.append_assoc]
  draw hv := by
    obtain ⟨hreachable, hstep⟩ := reachability.draw hv.reachable
    exact ⟨⟨hreachable, reachability.step_trans hv.grows hstep, hv.shown⟩, hstep⟩

namespace Renaming
variable {ρ : Renaming} {st s : Store}

theorem Relates.refl (h : st.Continues s) (r : Except Error Value) :
    Renaming.same.Relates st (r, s) (r, s) where
  identity _ _ := rfl
  scope _ := rfl
  result := by rw [Value.rename_same, Except.map_id]; rfl
  shown := by
    obtain ⟨vs, hvs⟩ := h.shown
    refine ⟨vs, hvs, ?_⟩
    rw [Value.rename_same, List.map_id]
    exact hvs
  get t name := by rw [Value.rename_same, Option.map_id]; rfl

/-- Outcomes that are the same up to what was made since a store are the same up to what was made since
an earlier one. -/
theorem Relates.of_continues {x y : Except Error Value × Store} (h : ρ.Relates s x y)
    (hs : st.Continues s) : ρ.Relates st x y where
  identity i hi := h.identity i (Nat.lt_of_lt_of_le hi hs.grows.identities)
  scope := h.scope
  result := h.result
  shown := by
    obtain ⟨vs, hvs⟩ := hs.shown
    obtain ⟨ws, hx, hy⟩ := h.shown
    -- what was shown in between is there already when the renaming begins to move identities
    have hfixed : vs.map (Value.rename ρ) = vs := by
      refine Value.map_rename_eq fun v hv => h.rename (hs.reachable.shown_in v ?_)
      rw [← Array.mem_toList_iff, hvs]
      exact List.mem_append_right _ hv
    refine ⟨vs ++ ws, ?_, ?_⟩
    · rw [hx, hvs, List.append_assoc]
    · rw [hy, hvs, List.map_append, hfixed, List.append_assoc]
  get := h.get

end Renaming

open SmallScheme.Action (Parallels)

/-- An identity may be used up between one thing and the next: the outcome is the same up to
identities. -/
theorem relates_skip {α : Type} {p : Action α} {k : α → Action Value} {st : Store}
    {Q : Store → α → Prop} (hst : st.Reachable) (hp : (continuing st).Obeys st p Q)
    (hk : ∀ s x, st.Continues s → Q s x → ∀ ρ old, ρ.Fixes s →
      Parallels ρ old (Value.rename ρ) (k x) (k x)) :
    ∃ ρ : Renaming, ρ.Relates st ((p >>= k).perform st)
      ((p >>= fun x => Action.freshIdentity >>= fun _ => k x).perform st) := by
  obtain ⟨hs, -, hx⟩ := hp ⟨hst, ⟨Nat.le_refl _, Nat.le_refl _⟩, [], (List.append_nil _).symm⟩
  rw [Action.perform_bind, Action.perform_bind]
  rcases hrun : p.perform st with ⟨e | x, s⟩
  · -- nothing is left to do, so no identity is used up
    rw [hrun] at hs
    exact ⟨.same, .refl hs _⟩
  · -- what is left to do finds the same store on both sides, but for the next identity
    rw [hrun] at hs hx
    have hfixes := Renaming.shift_fixes s 1
    have hstart := hfixes.inStep hs.reachable.closed (m := s.nextIdentity) (n := s.nextIdentity + 1)
      fun k => (Renaming.shift_identity_above k).trans (Nat.add_right_comm _ _ _)
    obtain ⟨hstep, hresult⟩ := hk s x hs (hx x rfl) _ _ hfixes _ _ hstart
    exact ⟨_, (Renaming.Relates.of_inStep hfixes hstep hresult).of_continues hs⟩

section
variable {c : Combinator} (hc : c ∈ [Combinator.map, .filter]) {depth : Nat} {f : Value}
include hc

theorem gather_parallels {ρ : Renaming} (old : List Value × List Value) {vs : List Value}
    (hf : f.rename ρ = f) (hvs : vs.map (Value.rename ρ) = vs) :
    Parallels ρ old (List.map (Value.rename ρ)) (Task.gather (Task.perform depth) c.pick f vs)
      (Task.gather (Task.perform depth) c.pick f vs) := by
  have hbelow := Task.perform_parallels ρ old depth
  rcases List.mem_pair.mp hc with rfl | rfl
  · have hrel := Transfer.rel_images (T := lockstep ρ old) hbelow f vs
    rwa [hf, hvs, Task.images_eq_gather] at hrel
  · have hrel := Transfer.rel_keep (T := lockstep ρ old) hbelow f vs
    rwa [hf, hvs, Task.keep_eq_gather] at hrel

theorem gather_obeys (depth : Nat) {D : Discipline} {st : Store} {vs : List Value}
    (hf : D.Admits st f) (hvs : ∀ v ∈ vs, D.Admits st v) :
    D.Obeys st (Task.gather (Task.perform depth) c.pick f vs) fun s us => ∀ u ∈ us, D.Admits s u := by
  have hbelow := D.regime.perform_obeys depth
  refine Discipline.obeys_iff.mpr fun hv => ?_
  rcases List.mem_pair.mp hc with rfl | rfl
  · rw [← Task.images_eq_gather]
    exact Regime.obeys_images hbelow hf hvs
  · rw [← Task.keep_eq_gather]
    exact Regime.obeys_keep hbelow hf hvs

variable {v : Value} {vs : List Value}

theorem apply_collecting (hf : f.isProcedure = true) (hv : v.items? = some vs) :
    apply (depth + 1) (.builtin (.combinator c)) [f, v] =
      Task.gather (Task.perform depth) c.pick f vs >>= Action.newList := by
  have hprocedure (op : String) : Task.procedureArg op f = .ok f := if_pos hf
  have hitems (op : String) : Primitive.items op v = .ok vs := by rw [Primitive.items, hv]
  change Task.applyStep (Task.perform depth) (.builtin (.combinator c)) [f, v] = _
  rcases List.mem_pair.mp hc with rfl | rfl
  · rw [← Task.images_eq_gather]
    simp only [Task.applyStep, Task.invoke, Task.combine, hprocedure, hitems]
    rfl
  · rw [← Task.keep_eq_gather]
    simp only [Task.applyStep, Task.invoke, Task.combine, hprocedure, hitems]
    rfl

end

theorem apply_fold {depth : Nat} {f v : Value} {vs : List Value} (hf : f.isProcedure = true)
    (hv : v.items? = some vs) (init : Value) :
    apply (depth + 1) (.builtin (.combinator .fold)) [f, init, v] =
      Task.accumulate (Task.perform depth) f init vs := by
  have hprocedure : Task.procedureArg "fold" f = .ok f := if_pos hf
  have hitems : Primitive.items "fold" v = .ok vs := by rw [Primitive.items, hv]
  change Task.applyStep (Task.perform depth) (.builtin (.combinator .fold)) [f, init, v] = _
  simp only [Task.applyStep, Task.invoke, Task.combine, hprocedure, hitems]
  rfl

theorem apply_append (depth i j : Nat) (as bs : List Value) :
    apply (depth + 1) (.builtin (.primitive .append)) [.list i as, .list j bs] =
      Action.newList (as ++ bs) := by
  have hspliced : [Value.list i as, .list j bs].flatMap Primitive.spliced = as ++ bs := by
    simp [Primitive.spliced]
  rw [← hspliced]
  rfl

/-- Gathering from two lists in one is gathering from one after the other, where identities are used up
after each of them. -/
theorem relates_gather_append {c : Combinator} (hc : c ∈ [Combinator.map, .filter]) (depth : Nat)
    {st : Store} (hst : st.Reachable) {f : Value} (hf : f.In st) {xs ys : List Value}
    (hitems : ∀ v ∈ xs ++ ys, v.In st) :
    ∃ ρ : Renaming, ρ.Relates st
      ((Task.gather (Task.perform depth) c.pick f (xs ++ ys) >>= Action.newList).perform st)
      ((do
        let us ← Task.gather (Task.perform depth) c.pick f xs
        let _ ← Action.freshIdentity
        let ws ← Task.gather (Task.perform depth) c.pick f ys
        let _ ← Action.freshIdentity
        Action.newList (us ++ ws) : Action Value).perform st) := by
  have hxs : ∀ v ∈ xs, v.In st := fun v hv => hitems v (List.mem_append_left ys hv)
  have hys : ∀ v ∈ ys, v.In st := fun v hv => hitems v (List.mem_append_right xs hv)
  -- first the identity that is used up at the end, and then the one in the middle
  obtain ⟨ρ, hend⟩ := relates_skip hst (k := Action.newList)
    (gather_obeys hc depth (D := continuing st) hf hitems) (by
      intro s us _ hus ρ old hρ
      have hrel := (lockstep ρ old).rel_newList us
      rwa [Value.map_rename_eq fun u hu => hρ.rename (hus u hu)] at hrel)
  obtain ⟨σ, hmiddle⟩ := relates_skip hst (k := fun us => do
      let ws ← Task.gather (Task.perform depth) c.pick f ys
      let _ ← Action.freshIdentity
      Action.newList (us ++ ws))
    (gather_obeys hc depth (D := continuing st) hf hxs) (by
      intro s us hs hus ρ old hρ
      have hfixed {v : Value} (hv : v.In st) : v.rename ρ = v := hρ.rename (hs.grows.value_in hv)
      have hmap := Value.map_rename_eq fun v hv => hfixed (hys v hv)
      refine (gather_parallels hc old (hfixed hf) hmap).bind fun ws => ?_
      refine Parallels.bind (lockstep ρ old).rel_identity fun _ => ?_
      have hrel := (lockstep ρ old).rel_newList (us ++ ws)
      rwa [List.map_append, Value.map_rename_eq fun u hu => hρ.rename (hus u hu)] at hrel)
  rw [Task.gather_append, bind_assoc] at hend ⊢
  simp only [bind_assoc, pure_bind] at hend ⊢
  exact ⟨_, hend.trans hmiddle⟩

/-- Combinators on two lists in one. From every reachable store and for every procedure of it, whatever
the procedure shows and wherever it fails: to fold the items of both lists is to fold those of the first
and then those of the second from there, and to map or to filter them is to do so with the first list and
then with the second, and to append the results, up to the identities that this makes. Such a call
succeeds if the procedure succeeds on each of the items in turn, and takes its result from the images. It
fails if the procedure succeeds on the items before some item and then fails on that one, and it ends
there, with the same error and the same store. -/
theorem combinators_append (depth : Nat) {st : Store} (hst : st.Reachable) {f : Value}
    (hf : f.isProcedure = true) (hfst : f.In st) {xs ys : List Value}
    (hitems : ∀ v ∈ xs ++ ys, v.In st) {v vx vy : Value} (hv : v.items? = some (xs ++ ys))
    (hvx : vx.items? = some xs) (hvy : vy.items? = some ys) :
    let call (c : Combinator) := apply (depth + 1) (.builtin (.combinator c))
    (∀ init, call .fold [f, init, v] = (do
      let acc ← call .fold [f, init, vx]
      call .fold [f, acc, vy])) ∧
    (∀ init e st', (call .fold [f, init, v]).perform st = (.error e, st') ↔
      ∃ before x after acc st₁, xs ++ ys = before ++ x :: after ∧
        (call .fold [f, init, .list 0 before]).perform st = (.ok acc, st₁) ∧
        (apply depth f [acc, x]).perform st₁ = (.error e, st')) ∧
    ∀ c ∈ [Combinator.map, .filter],
      (∃ ρ : Renaming, ρ.Relates st ((call c [f, v]).perform st) ((do
        let a ← call c [f, vx]
        let b ← call c [f, vy]
        apply (depth + 1) (.builtin (.primitive .append)) [a, b] : Action Value).perform st)) ∧
      (∀ r st', (call c [f, v]).perform st = (.ok r, st') ↔
        ∃ ws st₁, AppliesInTurn depth f (xs ++ ys) st ws st₁ ∧
          (Action.newList (List.zipWith c.pick (xs ++ ys) ws).flatten).perform st₁ = (.ok r, st')) ∧
      ∀ e st', (call c [f, v]).perform st = (.error e, st') ↔
        ∃ before x after ws st₁, xs ++ ys = before ++ x :: after ∧
          AppliesInTurn depth f before st ws st₁ ∧
          (apply depth f [x]).perform st₁ = (.error e, st') := by
  intro call
  refine ⟨fun init => ?_, fun init e st' => ?_, fun c hc => ⟨?_, fun r st' => ?_, fun e st' => ?_⟩⟩
  · simp only [call, apply_fold hf hv, apply_fold hf hvx, apply_fold hf hvy]
    exact Task.accumulate_append _ f init xs ys
  · have hbefore (before : List Value) : call .fold [f, init, .list 0 before] =
        Task.accumulate (Task.perform depth) f init before := apply_fold hf rfl init
    simp only [hbefore]
    rw [← accumulate_eq_error_iff, ← apply_fold hf hv]
  · obtain ⟨ρ, hρ⟩ := relates_gather_append hc depth hst hfst hitems
    refine ⟨ρ, ?_⟩
    simp only [call, apply_collecting hc hf hv, apply_collecting hc hf hvx, apply_collecting hc hf hvy]
    simpa only [Action.newList, bind_assoc, pure_bind, apply_append] using hρ
  · simp only [call, apply_collecting hc hf hv, Action.perform_bind_eq_ok, gather_eq_ok_iff]
    constructor
    · rintro ⟨us, st₁, ⟨ws, hws, rfl⟩, hr⟩
      exact ⟨ws, st₁, hws, hr⟩
    · rintro ⟨ws, st₁, hws, hr⟩
      exact ⟨_, st₁, ⟨ws, hws, rfl⟩, hr⟩
  · simp only [call, apply_collecting hc hf hv, Action.perform_bind_eq_error, gather_eq_error_iff]
    constructor
    · -- once all is gathered, making the list does not fail
      rintro (hfails | ⟨_, _, _, hnew⟩)
      · exact hfails
      · cases hnew
    · exact .inl

/-- The first item of a list of lists is taken from each, and the second of them is not a list. -/
theorem combinators_append_failure :
    let st : Store := { (Session.start { depth := 0 }).store with nextIdentity := 1 }
    let f := Value.builtin (.primitive .car)
    let call (c : Combinator) := apply 2 (.builtin (.combinator c))
    let xs := [Value.list 0 [.bool true]]
    let ys := [Value.bool false, .bool true]
    let v := Value.list 1 (xs ++ ys)
    (∃ ρ : Renaming, ρ.Relates st ((call .map [f, v]).perform st) ((do
      let a ← call .map [f, .list 2 xs]
      let b ← call .map [f, .list 3 ys]
      apply 2 (.builtin (.primitive .append)) [a, b] : Action Value).perform st)) ∧
    ∃ e, (apply 1 f [.bool false]).perform st = (.error e, st) ∧
      (call .map [f, v]).perform st = (.error e, st) ∧
      (call .filter [f, v]).perform st = (.error e, st) := by
  intro st f call xs ys v
  have hst : st.Reachable := (Store.Reachable.start { depth := 0 }).identities 1
  have hitems : ∀ v ∈ xs ++ ys, v.In st := by
    have hlist : (Value.list 0 [.bool true]).In st :=
      Value.within_list.mpr ⟨Nat.zero_lt_one, List.forall_mem_singleton.mpr trivial⟩
    have hbools : ∀ v ∈ ys, v.In st :=
      List.forall_mem_cons.mpr ⟨trivial, List.forall_mem_singleton.mpr trivial⟩
    exact List.forall_mem_cons.mpr ⟨hlist, hbools⟩
  have hv : v.items? = some (xs ++ ys) := rfl
  have hvx : (Value.list 2 xs).items? = some xs := rfl
  have hvy : (Value.list 3 ys).items? = some ys := rfl
  obtain ⟨-, -, hlists⟩ := combinators_append 1 hst (f := f) rfl trivial hitems hv hvx hvy
  obtain ⟨hmap, -, hmapFails⟩ := hlists .map List.mem_cons_self
  obtain ⟨-, -, hfilterFails⟩ := hlists .filter (List.mem_cons_of_mem _ List.mem_cons_self)
  have hfirst : AppliesInTurn 1 f xs st [.bool true] st := .cons rfl (.nil st)
  have hfails : ∃ e, (apply 1 f [.bool false]).perform st = (.error e, st) := ⟨_, rfl⟩
  obtain ⟨e, he⟩ := hfails
  refine ⟨hmap, e, he, ?_, ?_⟩
  · exact (hmapFails e st).mpr ⟨xs, .bool false, [.bool true], _, st, rfl, hfirst, he⟩
  · exact (hfilterFails e st).mpr ⟨xs, .bool false, [.bool true], _, st, rfl, hfirst, he⟩

end SmallScheme
