import SmallScheme.Proofs.Failure
import SmallScheme.Proofs.Forms
import SmallScheme.Proofs.Lockstep

/-! Local bindings: what `let` and `let*` abbreviate.

To bind names for a body is to apply a procedure of that body at once, and to bind them one after
another is to nest bindings of one name each. Only the identity of the procedure tells the first two
apart, and nothing tells the second two apart. -/
namespace SmallScheme
open SpecialForm

theorem Action.ext {α : Type} {a b : Action α} (h : ∀ st, a.perform st = b.perform st) : a = b :=
  funext h

/-- Binds names to the values of expressions and evaluates a body with them. The expressions and the
body may nest to different depths. -/
def evalLocal (depth depth' : Nat) (env : ScopeId) (pairs : List (String × Value))
    (body : List Value) : Action Value := do
  let vs ← runBindings (eval depth) env pairs
  let inner ← Action.extend env vs
  runAll (eval depth') inner body

theorem evalLocal_deepens {depth depth' deep deep' : Nat} (h : depth ≤ deep) (h' : depth' ≤ deep')
    (env : ScopeId) (pairs : List (String × Value)) (body : List Value) :
    Action.Deepens (evalLocal depth depth' env pairs body) (evalLocal deep deep' env pairs body) := by
  apply (Action.deepening_runBindings env pairs h).bind
  intro vs
  apply (Action.Follows.self _).bind
  intro inner
  exact Action.deepening_runAll inner body h'

/-- Arguments are evaluated as the expressions of bindings are. -/
theorem evalAll_bind {β : Type} (below : Task → Action Value) (s : ScopeId)
    (pairs : List (String × Value)) {k : List Value → Action β}
    {l : List (String × Value) → Action β}
    (h : ∀ vs, vs.length = pairs.length → k vs = l ((pairs.map Prod.fst).zip vs)) :
    Task.evalAll below s (pairs.map Prod.snd) >>= k =
      runBindings (fun e s => below (.eval e s)) s pairs >>= l := by
  induction pairs generalizing k l with
  | nil => exact h [] rfl
  | cons p pairs ih =>
    rw [List.map_cons, Task.evalAll, runBindings, bind_assoc, bind_assoc]
    refine bind_congr fun v => ?_
    rw [bind_assoc, bind_assoc]
    simp only [pure_bind]
    refine ih fun vs hvs => ?_
    exact h (v :: vs) (congrArg Nat.succ hvs)

/-- The error of a closure is never one that is marked. -/
theorem rethrow_closure (depth i : Nat) (params : List String) (body : Value) (s : ScopeId)
    (args : List Value) (head : String) :
    (tryCatch (Task.perform depth (.apply (.closure i params body s) args))
      fun e => throw (e.inApplication head)) =
      Task.perform depth (.apply (.closure i params body s) args) := by
  apply Action.ext
  intro st
  rw [Action.perform_tryCatch]
  rcases hrun : (Task.perform depth (.apply (.closure i params body s) args)).perform st with
    ⟨e | v, st'⟩
  · have haccounts := Task.accounts_of_failure depth _ st e st' hrun
    cases e with
    | runtime fault =>
      -- only built-in procedures fail so
      obtain ⟨op, vs, hop⟩ := haccounts.appliesBuiltin
      cases hop
    | _ => rfl
  · rfl

/-- The procedure with the given names as parameters and the given body, applied at once to
expressions: `((lambda (name ...) (begin e ...)) e ...)`. -/
def Value.lambdaCall (i j k l : Nat) (pairs : List (String × Value)) (body : List Value) : Value :=
  .list i (.list j [.symbol "lambda", .list k ((pairs.map Prod.fst).map .symbol),
    .list l (.symbol "begin" :: body)] :: pairs.map Prod.snd)

section
variable {body : List Value} (pairs : List (String × Value)) (i j k l : Nat) (env : ScopeId)

theorem eval_lambdaCall (hbody : body ≠ []) (depth : Nat) :
    eval (depth + 3) (.lambdaCall i j k l pairs body) env =
      Action.freshIdentity >>= fun _ => evalLocal (depth + 2) depth env pairs body := by
  rw [eval, Task.perform_succ, Value.lambdaCall, Task.step_application rfl, Task.evalApplication]
  change (eval (depth + 2) _ env >>= _) = _
  rw [eval_lambda, Action.newClosure, bind_assoc]
  refine bind_congr fun n => ?_
  rw [pure_bind]
  -- the arguments are the expressions of the bindings, so there is one for each parameter
  apply evalAll_bind
  intro vs hvs
  have hprocedure : (Value.closure n (pairs.map Prod.fst) (.list l (.symbol "begin" :: body))
    env).isProcedure = true := rfl
  rw [if_pos hprocedure, rethrow_closure]
  apply (apply_closure (hvs.trans (List.length_map _).symm)).trans
  exact bind_congr fun inner => eval_begin depth l inner hbody

/-- An immediate application does what the local binding does, with one identity used up and two more
levels of depth for the arguments. -/
theorem ends_lambdaCall (hbody : body ≠ []) {st : Store} {out : Except Error Value × Store} :
    Action.Ends (fun depth => evalLocal depth depth env pairs body)
        { st with nextIdentity := st.nextIdentity + 1 } out ↔
      Action.Ends (fun depth => eval depth (.lambdaCall i j k l pairs body) env) st out := by
  have hrun (depth : Nat) : (eval (depth + 3) (.lambdaCall i j k l pairs body) env).perform st =
      (evalLocal (depth + 2) depth env pairs body).perform
        { st with nextIdentity := st.nextIdentity + 1 } := by
    rw [eval_lambdaCall pairs i j k l env hbody]
    rfl
  constructor
  · -- three levels more are enough for the application
    rintro ⟨hdone, depth, rfl⟩
    refine ⟨hdone, depth + 3, (hrun depth).trans ?_⟩
    have hdeep : depth ≤ depth + 2 := Nat.le_add_right depth 2
    exact (evalLocal_deepens hdeep (Nat.le_refl depth) env pairs body).eq hdone
  · -- an application that ends also ends three levels deeper, where it can be taken apart
    intro h
    obtain ⟨depth, hout⟩ := h.at_depth (Action.deepening_eval _ env)
    have hlocal := (hrun depth).symm.trans (hout (depth + 3) (Nat.le_add_right depth 3))
    subst hlocal
    refine ⟨h.1, depth + 2, ?_⟩
    have hdeep : depth ≤ depth + 2 := Nat.le_add_right depth 2
    exact (evalLocal_deepens (Nat.le_refl _) hdeep env pairs body).eq h.1

end

theorem evalLocal_parallels (ρ : Renaming) (old : List Value × List Value) (depth : Nat) (env : ScopeId)
    (pairs : List (String × Value)) (body : List Value) :
    Action.Parallels ρ old (Value.rename ρ) (evalLocal depth depth env pairs body)
      (evalLocal depth depth (ρ.scope env) (renameBindings ρ pairs) (body.map (Value.rename ρ))) := by
  have heval (e : Value) (s : ScopeId) :
      (lockstep ρ old).Rel (Value.rename ρ) (eval depth e s) (eval depth (e.rename ρ) (ρ.scope s)) :=
    Task.perform_parallels ρ old depth (.eval e s)
  refine (lockstep ρ old).rel_bind (Transfer.rel_runBindings heval env pairs) fun vs => ?_
  refine (lockstep ρ old).rel_bind ((lockstep ρ old).rel_extend env vs) fun inner => ?_
  exact Transfer.rel_runAll heval inner body

/-- A local binding has the same outcome when identities are skipped before it. -/
theorem evalLocal_skips {st : Store} (hst : st.Closed) (env : ScopeId) {body : List Value}
    {pairs : List (String × Value)} (hpairs : ∀ p ∈ pairs, p.2.In st) (hbody : ∀ e ∈ body, e.In st)
    (n : Nat) {b : Nat → Action Value}
    (hb : ∀ out, Action.Ends (fun depth => evalLocal depth depth env pairs body)
      { st with nextIdentity := st.nextIdentity + n } out ↔ Action.Ends b st out) :
    Action.SameOutcome st (fun depth => evalLocal depth depth env pairs body) b := by
  let ρ : Renaming := .shift st.nextIdentity 0 n 0
  have hρ : ρ.Fixes st := Renaming.shift_fixes st n
  have hstep : st.InStep ρ (st.shown.toList, st.shown.toList)
      { st with nextIdentity := st.nextIdentity + n } := by
    apply hρ.inStep hst
    intro k
    exact (Renaming.shift_identity_above k).trans (Nat.add_right_comm _ _ _)
  refine Action.sameOutcome_of_parallels hρ hstep (fun depth => ?_) hb
  -- the expressions are values of the store, so the renaming leaves them alone
  have hbindings : renameBindings ρ pairs = pairs :=
    renameBindings_eq fun p hp => hρ.rename (hpairs p hp)
  have h := evalLocal_parallels ρ (st.shown.toList, st.shown.toList) depth env pairs body
  rwa [hρ.scope, hbindings, Value.map_rename_eq fun e he => hρ.rename (hbody e he)] at h

/-- `let` is the immediate application of a procedure. In every store and scope, the form that binds
names, which may repeat, to the values of expressions for a body and the application of the procedure
with these names as parameters and that body to these expressions come to the same outcome, or neither
comes to an end: the same error or the same value up to the identities of what was made, the same values
shown, and the same bindings in every scope. -/
theorem let_sameOutcome_lambdaCall {st : Store} (hst : st.Closed) (env : ScopeId)
    {bindings body : List Value} {pairs : List (String × Value)}
    (hbind : List.Forall₂ Value.Binds bindings pairs) (hpairs : ∀ p ∈ pairs, p.2.In st)
    (hne : body ≠ []) (hbody : ∀ e ∈ body, e.In st) (i j i' j' k l : Nat) :
    Action.SameOutcome st
      (fun depth => eval depth (.list i (.symbol "let" :: .list j bindings :: body)) env)
      (fun depth => eval depth (.lambdaCall i' j' k l pairs body) env) := by
  have hlet (out : Except Error Value × Store) :
      Action.Ends (fun depth => eval depth (.list i (.symbol "let" :: .list j bindings :: body)) env)
        st out ↔ Action.Ends (fun depth => evalLocal depth depth env pairs body) st out := by
    rw [← Action.ends_succ (Action.deepening_eval _ env)]
    simp only [eval_let _ _ _ _ hbind hne, evalLocal]
  -- the application makes one closure more
  have hsame := evalLocal_skips hst env hpairs hbody 1
    (fun out => ends_lambdaCall pairs i' j' k l env hne)
  simpa only [Action.SameOutcome, hlet] using hsame

set_option maxRecDepth 20000 in
/-- A name is bound twice, and the binding that counts is a procedure made on the way. -/
theorem let_sameOutcome_lambdaCall_twice :
    let st : Store := { (Session.start { depth := 0 }).store with nextIdentity := 5 }
    let e := Value.list 0 [.symbol "lambda", .list 1 [], .symbol "x"]
    let pairs := [("x", Value.symbol "'a'"), ("x", e)]
    let body := [Value.list 2 [.symbol "define", .symbol "y", .symbol "x"], .symbol "y"]
    let form := Value.list 3 (.symbol "let" ::
      .list 4 [.list 5 [.symbol "x", .symbol "'a'"], .list 6 [.symbol "x", e]] :: body)
    ((eval 3 form ⟨0⟩).perform st).1 = .ok (.closure 5 [] (.symbol "x") ⟨0⟩) ∧
      ((eval 5 (.lambdaCall 7 8 9 10 pairs body) ⟨0⟩).perform st).1 =
        .ok (.closure 6 [] (.symbol "x") ⟨0⟩) ∧
      Action.SameOutcome st (fun depth => eval depth form ⟨0⟩)
        (fun depth => eval depth (.lambdaCall 7 8 9 10 pairs body) ⟨0⟩) := by
  refine ⟨by rfl, by rfl, ?_⟩
  apply let_sameOutcome_lambdaCall
  · exact ((Store.Reachable.start { depth := 0 }).identities 5).closed
  · exact .cons ⟨5, rfl⟩ (.cons ⟨6, rfl⟩ .nil)
  · simp [Value.In, Value.Within, Value.WithinAll]
  · exact List.cons_ne_nil _ _
  · simp [Value.In, Value.Within, Value.WithinAll]

/-- The forms are a body inside of bindings of one name each, the first one outermost. -/
inductive Nests (body : List Value) : List (String × Value) → List Value → Prop where
  | nil : Nests body [] body
  | cons {name : String} {e : Value} {pairs : List (String × Value)} {forms : List Value}
      (i j k : Nat) : Nests body pairs forms →
        Nests body ((name, e) :: pairs)
          [.list i (.symbol "let" :: .list j [.list k [.symbol name, e]] :: forms)]

theorem Nests.ne_nil {body forms : List Value} {pairs : List (String × Value)}
    (h : Nests body pairs forms) (hbody : body ≠ []) : forms ≠ [] := by
  cases h with
  | nil => exact hbody
  | cons i j k h => exact List.cons_ne_nil _ _

theorem deepening_chain (s : ScopeId) (pairs : List (String × Value)) (body : List Value) :
    Action.Deepening fun depth =>
      runChain (eval depth) s pairs >>= fun inner => runAll (eval depth) inner body :=
  (Action.deepening_runChain s pairs).bind fun inner => Action.deepening_runAll inner body

/-- Bindings one after another, with a body at their end, do what nested bindings do. -/
theorem Nests.ends_iff {body forms : List Value} {pairs : List (String × Value)}
    (h : Nests body pairs forms) (hbody : body ≠ []) (s : ScopeId) {st : Store}
    {out : Except Error Value × Store} :
    Action.Ends (fun depth => runChain (eval depth) s pairs >>= fun inner =>
        runAll (eval depth) inner body) st out ↔
      Action.Ends (fun depth => runAll (eval depth) s forms) st out := by
  induction h generalizing s st out with
  | nil => rfl
  | @cons name e pairs forms i j k h ih =>
    -- the scope is general: what follows a binding goes on in the copy that was made for it
    have hbind : List.Forall₂ Value.Binds [.list k [.symbol name, e]] [(name, e)] :=
      .cons ⟨k, rfl⟩ .nil
    change _ ↔ Action.Ends (fun depth => eval depth _ s) st out
    rw [← Action.ends_succ (Action.deepening_eval _ s)]
    simp only [eval_let _ _ _ _ hbind (h.ne_nil hbody), runChain, runBindings, bind_assoc, pure_bind]
    -- both evaluate the expression, which may fail, and copy the scope with the name bound
    apply Action.ends_bind_congr (Action.deepening_eval e s)
    · exact fun v => (Action.deepening_const _).bind fun inner => deepening_chain inner pairs body
    · exact fun v => (Action.deepening_const _).bind fun inner => Action.deepening_runAll inner forms
    · intro v st1
      apply Action.ends_bind_congr (Action.deepening_const _)
      · exact fun inner => deepening_chain inner pairs body
      · exact fun inner => Action.deepening_runAll inner forms
      · exact fun inner st2 => ih inner

/-- `let*` is a chain of nested `let`s in a fresh scope. In every store and scope, the form that binds
names one after another for a body comes to an end if and only if the `let`s of one name each do, nested
in a `let` of none, and both have the very same outcome: error or value, values shown and store. In
particular no scope that was there before is changed by what the expressions or the body define or
assign. -/
theorem letSeq_ends_iff_nested (st : Store) (env : ScopeId) {bindings body forms : List Value}
    {pairs : List (String × Value)} (hbind : List.Forall₂ Value.Binds bindings pairs)
    (hbody : body ≠ []) (hforms : Nests body pairs forms) (i j i' j' : Nat)
    (out : Except Error Value × Store) :
    (Action.Ends (fun depth => eval depth (.list i (.symbol "let*" :: .list j bindings :: body)) env)
        st out ↔
      Action.Ends (fun depth => eval depth (.list i' (.symbol "let" :: .list j' [] :: forms)) env)
        st out) ∧
    (Action.Ends (fun depth => eval depth (.list i (.symbol "let*" :: .list j bindings :: body)) env)
        st out →
      ∀ s : ScopeId, s.index < st.scopes.size → out.2.scopes[s.index]? = st.scopes[s.index]?) := by
  constructor
  · rw [← Action.ends_succ (Action.deepening_eval _ env)]
    rw [← Action.ends_succ (Action.deepening_eval (.list i' _) env)]
    -- one level down, both make the fresh scope, and the bindings go on from there
    simp only [eval_letSeq _ _ _ _ hbind hbody, eval_let _ _ _ _ .nil (hforms.ne_nil hbody),
      runBindings, pure_bind]
    apply Action.ends_bind_congr (Action.deepening_const _)
    · exact fun outer => deepening_chain outer pairs body
    · exact fun outer => Action.deepening_runAll outer forms
    · exact fun outer st1 => hforms.ends_iff hbody outer
  · intro h s hs
    rw [← Action.ends_succ (Action.deepening_eval _ env)] at h
    obtain ⟨_, depth, rfl⟩ := h
    have hrun : eval (depth + 1) (.list i (.symbol "let*" :: .list j bindings :: body)) env =
        runLetSeq (eval depth) env (.list j bindings :: body) :=
      eval_form letSeq (accepts_body hbody _) depth i env
    dsimp only
    rw [hrun]
    exact chain_keeps depth env _ st s hs

/-- An expression defines a name in the scope of the chain, and the body assigns to it. -/
theorem letSeq_ends_iff_nested_define :
    let st : Store := { scopes := #[∅] }
    let e := Value.list 0 [.symbol "define", .symbol "y", .symbol "'a'"]
    let body := [Value.list 1 [.symbol "set!", .symbol "y", .symbol "'b'"], .symbol "y"]
    let form := Value.list 2 (.symbol "let*" :: .list 3 [.list 4 [.symbol "x", e]] :: body)
    let nested := Value.list 5 [.symbol "let", .list 6 [],
      .list 7 (.symbol "let" :: .list 8 [.list 9 [.symbol "x", e]] :: body)]
    let out := (eval 3 form ⟨0⟩).perform st
    out.1 = .ok (.string "b") ∧ Action.Ends (fun depth => eval depth nested ⟨0⟩) st out ∧
      out.2.scopes[0]? = st.scopes[0]? := by
  intro st e body form nested out
  have hbind : List.Forall₂ Value.Binds [.list 4 [.symbol "x", e]] [("x", e)] :=
    .cons ⟨4, rfl⟩ .nil
  have hresult : out.1 = .ok (.string "b") := rfl
  have hends : Action.Ends (fun depth => eval depth form ⟨0⟩) st out := by
    refine ⟨?_, 3, rfl⟩
    rw [hresult]
    exact nofun
  have hbody : body ≠ [] := List.cons_ne_nil _ _
  have h := letSeq_ends_iff_nested st ⟨0⟩ hbind hbody (.cons 7 8 9 .nil) 2 3 5 6 out
  exact ⟨hresult, h.1.mp hends, h.2 hends ⟨0⟩ Nat.zero_lt_one⟩

end SmallScheme
