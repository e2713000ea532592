import SmallScheme.Proofs.Course
import SmallScheme.Proofs.Forms

/-! Persistence: a name that is bound in a scope stays bound there.

Every primitive change of a store keeps the names of every scope. A scope is made as a copy of one that
is there, so what the global scope starts with is bound in every scope. A name that an assignment finds
bound is therefore still bound when the new value has been evaluated, whatever that did. -/
namespace SmallScheme

namespace Store
variable {st a b c : Store}

/-- Every name that is bound in a scope of `a` is bound there in `b`. -/
def KeepsNames (a b : Store) : Prop :=
  ∀ s name, a.contains s name = true → b.contains s name = true

/-- Every scope binds every name that sessions start with. -/
def Furnished (st : Store) : Prop :=
  ∀ s : ScopeId, s.index < st.scopes.size → ∀ name, globalBindings.contains name = true →
    st.contains s name = true

theorem KeepsNames.refl (st : Store) : st.KeepsNames st := fun _ _ h => h

theorem KeepsNames.trans (hab : a.KeepsNames b) (hbc : b.KeepsNames c) : a.KeepsNames c :=
  fun s name h => hbc s name (hab s name h)

theorem extend_keepsNames (st : Store) (s : ScopeId) (more : List (String × Value)) :
    st.KeepsNames (st.extend s more).2 := by
  intro t name hbound
  rw [contains_eq, get?_extend]
  split
  · -- the scope is new, and nothing was bound in it before
    next ht =>
      rw [contains_eq, get?_eq_none (Nat.le_of_eq ht.symm)] at hbound
      cases hbound
  · rwa [← contains_eq]

theorem define_keepsNames (st : Store) (s : ScopeId) (key : String) (v : Value) :
    st.KeepsNames (st.define s key v) := by
  intro t name hbound
  rw [contains_eq, get?_define]
  split
  · rfl
  · rwa [← contains_eq]

end Store

theorem Bindings.isSome_overlay {b : Bindings} {name : String} (h : b[name]?.isSome = true)
    (more : List (String × Value)) : (b.overlay more)[name]?.isSome = true := by
  rw [getElem?_overlay]
  cases valueFor? name more with
  | none => exact h
  | some v => rfl

namespace Store
variable {st a b : Store}

/-- A scope that is made as a copy of one that is there binds what that one binds. -/
theorem Furnished.extend (h : st.Furnished) {s : ScopeId} (hs : s.index < st.scopes.size)
    (more : List (String × Value)) : (st.extend s more).2.Furnished := by
  intro t ht name hname
  change t.index < (st.scopes.push _).size at ht
  rw [Array.size_push] at ht
  rw [contains_eq, get?_extend]
  split
  · apply Bindings.isSome_overlay
    have hbound := h s hs name hname
    rwa [contains_eq] at hbound
  · rw [← contains_eq]
    exact h t (by omega) name hname

theorem Furnished.define (h : st.Furnished) (s : ScopeId) (name : String) (v : Value) :
    (st.define s name v).Furnished := by
  intro t ht key hkey
  change t.index < (st.scopes.modify _ _).size at ht
  rw [Array.size_modify] at ht
  exact define_keepsNames st s name v t key (h t ht key hkey)

theorem start_furnished (setup : Setup) : (Session.start setup).store.Furnished := by
  rintro ⟨i⟩ hs name hname
  obtain rfl : i = 0 := Nat.lt_one_iff.mp hs
  exact hname

/-- Wherever a session comes to, every scope binds every name that it started with. -/
theorem Reachable.furnished (h : st.Reachable) : st.Furnished := by
  induction h with
  | start setup => exact start_furnished setup
  | identities n _ ih => exact ih
  | extend _ hs _ ih => exact ih.extend hs _
  | define name _ _ _ ih => exact ih.define _ name _
  | display _ _ ih => exact ih
  | clear _ ih => exact ih
  | draw _ ih => exact ih

end Store

open Store in
/-- No store loses a name of an earlier one, whatever values and scopes there are. -/
def nameKeeping (base : Store) : Discipline where
  valid := base.KeepsNames
  step := KeepsNames
  known _ _ := True
  readable _ _ := True
  writable _ _ := True
  step_refl := KeepsNames.refl
  step_trans := KeepsNames.trans
  known_mono _ _ h := h
  readable_mono _ _ h := h
  writable_mono _ _ h := h
  readable_of_writable h := h
  get_within _ _ _ := Value.within_true _
  identity hv := ⟨hv, .refl _, trivial⟩
  extend hv _ _ := ⟨hv.trans (extend_keepsNames _ _ _), extend_keepsNames _ _ _, trivial⟩
  define hv _ _ := ⟨hv.trans (define_keepsNames _ _ _ _), define_keepsNames _ _ _ _⟩
  display hv _ := ⟨hv, .refl _⟩
  draw hv := ⟨hv, .refl _⟩

theorem nameKeeping_allows (base st : Store) (t : Task) : (nameKeeping base).Allows st t := by
  cases t with
  | eval e s => exact ⟨Value.within_true e, trivial⟩
  | apply procedure args => exact ⟨Value.within_true procedure, fun v _ => Value.within_true v⟩

/-- Loading a form hands out identities and changes nothing else. -/
theorem nameKeeping_load (base st : Store) (d : Datum) :
    (nameKeeping base).Obeys st (Action.load d) (nameKeeping base).Admits := by
  intro hv
  rw [Action.perform_load]
  exact ⟨hv, .refl _, fun v _ => Value.within_true v⟩

/-- Evaluation and application keep every name, finished or failed. -/
theorem Task.perform_keepsNames (depth : Nat) (t : Task) (st : Store) :
    st.KeepsNames ((t.perform depth).perform st).2 :=
  ((nameKeeping st).perform_obeys depth st t (nameKeeping_allows st st t) (.refl st)).1

/-- They keep them on the way, too. -/
theorem Task.Passes.keepsNames {depth : Nat} {t : Task} {st st' : Store} (h : t.Passes depth st st') :
    st.KeepsNames st' :=
  (nameKeeping st).valid_of_passes h (.refl st) (nameKeeping_allows st st t)

namespace Session

/-- What a host can ask of a session. -/
inductive Call where
  | evaluate (text : String)
  | evalExpr (e : Value)
  | define (name : String) (v : Value)

/-- The session after a call. -/
def after (ses : Session) : Call → Session
  | .evaluate text => (ses.evaluate text).2
  | .evalExpr e => (ses.evalExpr e).2
  | .define name v => ses.define name v

/-- The values that the call hands over are values of the store. -/
def Call.In (st : Store) : Call → Prop
  | .evaluate _ => True
  | .evalExpr e => e.In st
  | .define _ v => v.In st

/-- The sessions that there are: they come from a new session by calls. In between the host may take
identities for lists of its own. -/
inductive Visited : Session → Prop where
  | start (setup : Setup) : Visited (start setup)
  | identities {ses : Session} (n : Nat) : Visited ses →
      Visited { ses with store := { ses.store with nextIdentity := ses.store.nextIdentity + n } }
  | call {ses : Session} (c : Call) : Visited ses → c.In ses.store → Visited (ses.after c)

/-- The stores that a session passes through with a call: those before and after it, and those that the
evaluation passes through. -/
inductive Passes (ses : Session) : Call → Store → Prop where
  | before (c : Call) : Passes ses c ses.store
  | after (c : Call) : Passes ses c (ses.after c).store
  | text {text : String} {st : Store} : FormsPass ses.depth ses.global (Program.ofText text).forms
      { ses.store with shown := #[] } st → Passes ses (.evaluate text) st
  | expr {e : Value} {st : Store} : Task.Passes ses.depth (.eval e ses.global)
      { ses.store with shown := #[] } st → Passes ses (.evalExpr e) st

theorem Sound.run {ses : Session} (h : ses.Sound) {a : Action Value}
    (ha : reachability.Obeys { ses.store with shown := #[] } a reachability.Admits) :
    (ses.run a).2.Sound := by
  obtain ⟨hv, hgrows, _⟩ := ha h.store.clear
  exact ⟨hv, Nat.lt_of_lt_of_le h.global hgrows.scopes⟩

/-- A call leaves a session sound. -/
theorem Sound.after {ses : Session} (h : ses.Sound) {c : Call} (hc : c.In ses.store) :
    (ses.after c).Sound := by
  cases c with
  | evaluate text =>
    apply h.run
    exact Discipline.obeys_program obeys_load ses.depth _ h.global
  | evalExpr e =>
    apply h.run
    exact reachability.eval_obeys ses.depth _ e ses.global hc h.global
  | define name v =>
    exact ⟨h.store.define name h.global hc,
      Nat.lt_of_lt_of_le h.global (Store.define_grows ses.store _ name v).scopes⟩

theorem Visited.sound {ses : Session} (h : ses.Visited) : ses.Sound := by
  induction h with
  | start setup => exact start_sound setup
  | identities n _ ih => exact ⟨ih.store.identities n, ih.global⟩
  | call c _ hc ih => exact ih.after hc

/-- All stores that a session passes through can be reached. -/
theorem Passes.reachable {ses : Session} {c : Call} {st : Store} (h : ses.Passes c st)
    (hses : ses.Sound) (hc : c.In ses.store) : st.Reachable := by
  cases h with
  | before => exact hses.store
  | after => exact (hses.after hc).store
  | text hforms =>
    exact reachability.valid_of_formsPass obeys_load hforms hses.store.clear hses.global
  | expr hpasses =>
    exact reachability.valid_of_passes hpasses hses.store.clear ⟨hc, hses.global⟩

/-- They have all names that there were before the call. -/
theorem Passes.keepsNames {ses : Session} {c : Call} {st : Store} (h : ses.Passes c st) :
    ses.store.KeepsNames st := by
  cases h with
  | before => exact .refl _
  | after =>
    cases c with
    | evaluate text =>
      have hprogram : (nameKeeping ses.store).Obeys { ses.store with shown := #[] }
          ((Program.ofText text).eval ses.depth ses.global) (nameKeeping ses.store).Admits :=
        Discipline.obeys_program (nameKeeping_load ses.store) ses.depth _ trivial
      exact (hprogram (.refl _)).1
    | evalExpr e =>
      exact Task.perform_keepsNames ses.depth (.eval e ses.global) { ses.store with shown := #[] }
    | define name v => exact Store.define_keepsNames ses.store ses.global name v
  | text hforms =>
    exact (nameKeeping ses.store).valid_of_formsPass (nameKeeping_load _) hforms (.refl _) trivial
  | expr hpasses =>
    exact (nameKeeping ses.store).valid_of_passes hpasses (.refl _) (nameKeeping_allows _ _ _)

end Session

section
variable (depth i : Nat) (env : ScopeId) (name : String) (e : Value) {st st' : Store}

/-- An assignment to a name that is not bound does nothing, and its expression is not evaluated. -/
theorem assign_unbound (h : st.contains env name = false) :
    (eval (depth + 1) (.list i [.symbol "set!", .symbol name, e]) env).perform st =
      (.error (.unbound name), st) := by
  rw [eval_assign, Action.perform_bind, Action.perform_get]
  dsimp only
  rw [h]
  rfl

theorem assign_bound (h : st.contains env name = true) :
    (eval (depth + 1) (.list i [.symbol "set!", .symbol name, e]) env).perform st =
      (do Action.set env name (← eval depth e env); return .unspecified : Action Value).perform st := by
  rw [eval_assign, Action.perform_bind, Action.perform_get]
  dsimp only
  rw [if_pos h]

/-- An assignment to a name that is bound fails if its expression fails. -/
theorem assign_error (h : st.contains env name = true) {err : Error}
    (he : (eval depth e env).perform st = (.error err, st')) :
    (eval (depth + 1) (.list i [.symbol "set!", .symbol name, e]) env).perform st =
      (.error err, st') := by
  rw [assign_bound depth i env name e h, Action.perform_bind, he]

/-- If the expression has a value then the name is still bound, and is bound to that value. -/
theorem assign_ok (h : st.contains env name = true) {v : Value}
    (he : (eval depth e env).perform st = (.ok v, st')) :
    st'.contains env name = true ∧
      (eval (depth + 1) (.list i [.symbol "set!", .symbol name, e]) env).perform st =
        (.ok .unspecified, st'.define env name v) := by
  have hkept := Task.perform_keepsNames depth (.eval e env) st env name h
  change ((eval depth e env).perform st).2.contains env name = true at hkept
  rw [he] at hkept
  refine ⟨hkept, ?_⟩
  rw [assign_bound depth i env name e h, Action.perform_bind, he]
  dsimp only
  rw [Action.perform_bind, Action.perform_set, if_pos hkept]
  rfl

end

/-- Bindings never disappear. In every store that a session passes through, in a call or between calls
and whether the call succeeds or fails, every scope binds every name that sessions start with, and every
name that it bound before the call. No evaluation and no application removes a name from a scope, at its
end or on the way to it, whatever the store. Hence an assignment to a name that is not bound fails for
that and does nothing, and one to a name that is bound fails with the error of its expression or finds
the name still bound and binds it to the value. -/
theorem bindings_persist :
    (∀ ses : Session, ses.Visited → ∀ c : Session.Call, c.In ses.store → ∀ st, ses.Passes c st →
      st.Furnished ∧ ses.store.KeepsNames st) ∧
    (∀ (depth : Nat) (st : Store),
      (∀ e env, st.KeepsNames ((eval depth e env).perform st).2) ∧
      (∀ p args, st.KeepsNames ((apply depth p args).perform st).2) ∧
      ∀ (t : Task) st', t.Passes depth st st' → st.KeepsNames st') ∧
    ∀ (depth i : Nat) (env : ScopeId) (name : String) (e : Value) (st : Store),
      let assign := (eval (depth + 1) (.list i [.symbol "set!", .symbol name, e]) env).perform st
      (st.contains env name = false → assign = (.error (.unbound name), st)) ∧
      (st.contains env name = true → ∀ st',
        (∀ err, (eval depth e env).perform st = (.error err, st') → assign = (.error err, st')) ∧
        ∀ v, (eval depth e env).perform st = (.ok v, st') →
          st'.contains env name = true ∧ assign = (.ok .unspecified, st'.define env name v)) := by
  refine ⟨fun ses hses c hc st hst => ?_, fun depth st => ⟨fun e env => ?_, fun p args => ?_, ?_⟩, ?_⟩
  · exact ⟨(hst.reachable hses.sound hc).furnished, hst.keepsNames⟩
  · exact Task.perform_keepsNames depth (.eval e env) st
  · exact Task.perform_keepsNames depth (.apply p args) st
  · exact fun t st' hpasses => hpasses.keepsNames
  · intro depth i env name e st
    refine ⟨assign_unbound depth i env name e, fun hbound st' => ⟨fun err herr => ?_, fun v hv => ?_⟩⟩
    · exact assign_error depth i env name e hbound herr
    · exact assign_ok depth i env name e hbound hv

/-- A text that fails leaves a session in which the names are bound. An assignment whose expression
assigns to the same name finds it bound, and one to a name that is not bound shows nothing. -/
theorem bindings_persist_assign :
    let ses := Session.start { depth := 9 }
    let st : Store := { scopes := #[Bindings.overlay ∅ [("x", .nil)]] }
    let e := Value.list 1 [.symbol "set!", .symbol "x", .symbol "'a'"]
    (ses.after (.evaluate "(define f (car 1))")).store.Furnished ∧
      (eval 3 (.list 0 [.symbol "set!", .symbol "y", e]) ⟨0⟩).perform st = (.error (.unbound "y"), st) ∧
      ((eval 3 (.list 0 [.symbol "set!", .symbol "x", e]) ⟨0⟩).perform st).1 = .ok .unspecified := by
  intro ses st e
  have hsession := bindings_persist.1 ses (.start { depth := 9 }) (.evaluate "(define f (car 1))") trivial
  have hassign := bindings_persist.2.2 2 0 ⟨0⟩
  have hinner : (eval 2 e ⟨0⟩).perform st =
      (.ok .unspecified, st.define ⟨0⟩ "x" (.string "a")) := rfl
  refine ⟨(hsession _ (.after _)).1, (hassign "y" e st).1 rfl, ?_⟩
  rw [(((hassign "x" e st).2 rfl _).2 _ hinner).2]

end SmallScheme
