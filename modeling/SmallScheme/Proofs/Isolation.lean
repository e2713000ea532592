import SmallScheme.Proofs.Reachable

/-! Scope isolation: an application changes no scope that was there before it, and an evaluation
changes none but the one it evaluates in.

Bodies run in copies of scopes, and so does a whole `let*`. The initial expressions of a `let` do not:
they run in the scope that the `let` is in, and may change it. -/
namespace SmallScheme

namespace Store

/-- The scopes of `kept` are the same in both stores. -/
def Keeps (kept : ScopeId → Prop) (st st' : Store) : Prop :=
  ∀ s, kept s → st'.scopes[s.index]? = st.scopes[s.index]?

theorem extend_keeps {kept : ScopeId → Prop} {st : Store} (h : ∀ s, kept s → s.index < st.scopes.size)
    (s : ScopeId) (more : List (String × Value)) : st.Keeps kept (st.extend s more).2 := by
  intro t ht
  have hlt := h t ht
  change (st.scopes.push _)[t.index]? = _
  rw [Array.getElem?_push_lt hlt, Array.getElem?_eq_getElem hlt]

theorem define_keeps {kept : ScopeId → Prop} (st : Store) {s : ScopeId} (hs : ¬ kept s)
    (name : String) (v : Value) : st.Keeps kept (st.define s name v) := by
  intro t ht
  have hne : s.index ≠ t.index := by
    intro he
    exact hs (ScopeId.index_injective he ▸ ht)
  change (st.scopes.modify s.index _)[t.index]? = _
  rw [Array.getElem?_modify, if_neg hne]

end Store

/-- Scopes that are to be kept are there, and nothing writes to them. -/
def isolation (kept : ScopeId → Prop) : Discipline where
  valid st := ∀ s, kept s → s.index < st.scopes.size
  step := Store.Keeps kept
  known _ _ := True
  readable _ _ := True
  writable _ s := ¬ kept s
  step_refl _ _ _ := rfl
  step_trans hab hbc s hs := (hbc s hs).trans (hab s hs)
  known_mono _ _ h := h
  readable_mono _ _ h := h
  writable_mono _ _ h := h
  readable_of_writable _ := trivial
  get_within _ _ _ := Value.within_true _
  identity hv := ⟨hv, fun _ _ => rfl, trivial⟩
  extend := by
    intro st s more hv _ _
    refine ⟨?_, Store.extend_keeps hv s more, ?_⟩
    · intro t ht
      have hlt := hv t ht
      change t.index < (st.scopes.push _).size
      rw [Array.size_push]
      omega
    · -- the new scope comes after every scope that is kept
      intro hk
      exact Nat.lt_irrefl _ (hv _ hk)
  define := by
    intro st s name v hv hs _
    refine ⟨?_, Store.define_keeps st hs name v⟩
    intro t ht
    change t.index < (st.scopes.modify _ _).size
    rw [Array.size_modify]
    exact hv t ht
  display hv _ := ⟨hv, fun _ _ => rfl⟩
  draw hv := ⟨hv, fun _ _ => rfl⟩

/-- What may write to none of the scopes that are there keeps all of them. -/
theorem keeps_of_obeys {α : Type} {st : Store} {a : Action α} {Q : Store → α → Prop}
    (h : (isolation (·.index < st.scopes.size)).Obeys st a Q) :
    st.Keeps (·.index < st.scopes.size) (a.perform st).2 := by
  obtain ⟨-, hkeeps, -⟩ := h fun _ hs => hs
  exact hkeeps

/-- An application keeps every scope. -/
theorem apply_keeps (depth : Nat) (p : Value) (args : List Value) (st : Store) :
    st.Keeps (fun s => s.index < st.scopes.size) ((apply depth p args).perform st).2 := by
  apply keeps_of_obeys
  apply Discipline.perform_obeys _ depth st (.apply p args)
  exact ⟨Value.within_true p, fun v _ => Value.within_true v⟩

/-- An evaluation keeps every scope but its own. -/
theorem eval_keeps (depth : Nat) (e : Value) (env : ScopeId) (st : Store) :
    st.Keeps (fun s => s.index < st.scopes.size ∧ s ≠ env) ((eval depth e env).perform st).2 := by
  -- the scope that is evaluated in is the one that may be written to
  let D := isolation fun s => s.index < st.scopes.size ∧ s ≠ env
  have hwritable : D.writable st env := fun h => h.2 rfl
  have hobeys := D.eval_obeys depth st e env (Value.within_true e) hwritable
  exact (hobeys fun _ h => h.1).2.1

/-- Expressions that run in a copy of a scope, as bodies do, keep every scope. -/
theorem body_keeps (depth : Nat) (s : ScopeId) (more : List (String × Value)) (body : List Value)
    (st : Store) :
    st.Keeps (fun s => s.index < st.scopes.size)
      ((do SpecialForm.runAll (eval depth) (← Action.extend s more) body :
        Action Value).perform st).2 := by
  apply keeps_of_obeys
  apply Discipline.obeys_bind (Discipline.obeys_extend trivial fun p _ => Value.within_true p.2)
  -- the body has the new scope to write to
  intro st1 inner _ hw
  apply Discipline.obeys_runAll (Discipline.eval_obeys _ depth) hw
  exact fun e _ => Value.within_true e

/-- A chain of bindings with its body keeps every scope. -/
theorem chain_keeps (depth : Nat) (s : ScopeId) (args : List Value) (st : Store) :
    st.Keeps (fun s => s.index < st.scopes.size)
      ((SpecialForm.runLetSeq (eval depth) s args).perform st).2 := by
  apply keeps_of_obeys
  apply Discipline.obeys_runLetSeq (Discipline.eval_obeys _ depth) trivial
  exact fun v _ => Value.within_true v

/-- Evaluates the initial expressions of a `let` in its scope, and nothing else. -/
def SpecialForm.runInitials (run : Value → ScopeId → Action Value) (s : ScopeId) (bindings : Value) :
    Action (List (String × Value)) := do
  runBindings run s (← Action.ofExcept (bindingPairs letIn bindings))

/-- No scope is lost while the initial expressions of a `let` are evaluated. -/
theorem initials_grow (depth : Nat) (s : ScopeId) (bindings : Value) (st : Store) :
    st.scopes.size ≤
      ((SpecialForm.runInitials (eval depth) s bindings).perform st).2.scopes.size := by
  have hpairs (st1 : Store) (pairs : List (String × Value)) :
      growth.Obeys st1 (SpecialForm.runBindings (eval depth) s pairs)
        fun st' vs => ∀ p ∈ vs, growth.Admits st' p.2 := by
    apply Discipline.obeys_runBindings (growth.eval_obeys depth) trivial
    exact fun p _ => Value.within_true p.2
  have hform : growth.Obeys st (Action.ofExcept (SpecialForm.bindingPairs .letIn bindings))
      fun _ _ => True := Discipline.obeys_ofExcept fun _ _ => trivial
  have hrun := Discipline.obeys_bind hform fun st1 pairs _ _ => hpairs st1 pairs
  obtain ⟨-, hgrows, -⟩ := hrun trivial
  exact hgrows.scopes

/-- A `let` is its initial expressions, and then its body in a copy of the scope. -/
theorem runLet_eq (run : Value → ScopeId → Action Value) (s : ScopeId) (bindings : Value)
    (body : List Value) : SpecialForm.runLet run s (bindings :: body) = (do
      let more ← SpecialForm.runInitials run s bindings
      SpecialForm.runAll run (← Action.extend s more) body) := by
  rw [SpecialForm.runInitials, bind_assoc]
  rfl

/-- After its initial expressions a `let` keeps every scope that was there before it. -/
theorem let_keeps (depth : Nat) (s : ScopeId) (bindings : Value) (body : List Value) (st : Store) :
    ((SpecialForm.runInitials (eval depth) s bindings).perform st).2.Keeps
      (fun s => s.index < st.scopes.size)
      ((SpecialForm.runLet (eval depth) s (bindings :: body)).perform st).2 := by
  intro t ht
  have hgrow := initials_grow depth s bindings st
  rw [runLet_eq, Action.perform_bind]
  rcases hinitials : (SpecialForm.runInitials (eval depth) s bindings).perform st with
    ⟨_ | more, st1⟩
  · rfl
  · rw [hinitials] at hgrow
    exact body_keeps depth s more body st1 t (Nat.lt_of_lt_of_le ht hgrow)

/-- Scopes are isolated. An application, finished or failed, leaves every scope as it was; an
evaluation leaves every scope as it was but the one it evaluates in; and the expressions of a body that
runs in a copy of a scope, or of a chain of bindings, leave that scope as it was too. What a `let` does
to the scopes that were there is what its initial expressions do. -/
theorem scopes_isolated (depth : Nat) (st : Store) (s : ScopeId) (hs : s.index < st.scopes.size) :
    (∀ (p : Value) (args : List Value),
      ((apply depth p args).perform st).2.scopes[s.index]? = st.scopes[s.index]?) ∧
    (∀ (e : Value) (env : ScopeId), s ≠ env →
      ((eval depth e env).perform st).2.scopes[s.index]? = st.scopes[s.index]?) ∧
    (∀ (outer : ScopeId) (more : List (String × Value)) (body : List Value),
      ((do SpecialForm.runAll (eval depth) (← Action.extend outer more) body :
        Action Value).perform st).2.scopes[s.index]? = st.scopes[s.index]?) ∧
    (∀ (outer : ScopeId) (args : List Value),
      ((SpecialForm.runLetSeq (eval depth) outer args).perform st).2.scopes[s.index]? =
        st.scopes[s.index]?) ∧
    (∀ (outer : ScopeId) (bindings : Value) (body : List Value),
      ((SpecialForm.runLet (eval depth) outer (bindings :: body)).perform st).2.scopes[s.index]? =
        ((SpecialForm.runInitials (eval depth) outer bindings).perform st).2.scopes[s.index]?) :=
  ⟨fun p args => apply_keeps depth p args st s hs,
    fun e env hne => eval_keeps depth e env st s ⟨hs, hne⟩,
    fun outer more body => body_keeps depth outer more body st s hs,
    fun outer args => chain_keeps depth outer args st s hs,
    fun outer bindings body => let_keeps depth outer bindings body st s hs⟩

/-- A procedure whose body defines a name that its own scope binds, and then fails. -/
theorem scopes_isolated_define :
    let st : Store := { scopes := #[Bindings.overlay ∅ [("x", .nil)]] }
    let body := Value.list 1 [.symbol "begin", .list 2 [.symbol "define", .symbol "x", .bool true],
      .list 3 [.symbol "set!", .symbol "x", .symbol "x"], .symbol "y"]
    let p := Value.closure 0 [] body ⟨0⟩
    0 < st.scopes.size ∧
      (((apply 5 p []).perform st).1 matches .error (.unbound "y")) = true ∧
      ((apply 5 p []).perform st).2.scopes.size = 2 ∧
      ((apply 5 p []).perform st).2.scopes[0]? = st.scopes[0]? := by
  intro st body p
  have hs : 0 < st.scopes.size := by decide
  exact ⟨hs, rfl, rfl, (scopes_isolated 5 st ⟨0⟩ hs).1 p []⟩

/-- A definition that is the initial expression of a `let` binds its name in the scope around it. -/
theorem initial_definition_escapes :
    let ses := Session.start { depth := 5 }
    let e := Value.list 0 [.symbol "let", .list 1 [.list 2 [.symbol "x",
      .list 3 [.symbol "define", .symbol "leak", .bool true]]], .symbol "x"]
    ses.get? "leak" = none ∧ (ses.evalExpr e).1.result = .ok .unspecified ∧
      (ses.evalExpr e).2.get? "leak" = some (.bool true) := by
  intro ses e
  exact ⟨rfl, rfl, rfl⟩

end SmallScheme
