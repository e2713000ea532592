import SmallScheme.Proofs.Persistence

/-! Reading names back: what a name gives in the scope where it has just been bound.

Every form that binds names takes any symbol for one. Evaluation does not look up every symbol: one in
quotes is a literal, and stands for the text between them. So a name that is bound is read as the value
it is bound to, except that a name in quotes is bound and never read. -/
namespace SmallScheme
open SpecialForm

/-- What a name that is bound to a value is read as. -/
def readAs (name : String) (v : Value) : Value :=
  match (Value.symbol name).literal? with
  | some text => .string text
  | none => v

/-- Only a name in quotes is not read as the value it is bound to. -/
theorem readAs_eq_iff {name : String} :
    (∀ v, readAs name v = v) ↔ (Value.symbol name).literal? = none := by
  unfold readAs
  cases (Value.symbol name).literal? with
  | some text =>
    refine iff_of_false (fun h => ?_) (fun h => ?_)
    · cases h .nil
    · cases h
  | none => exact iff_of_true (fun _ => rfl) rfl

namespace Store
variable {st : Store} {s : ScopeId} {name : String} {v : Value}

/-- Evaluating the name in the scope gives the value and changes nothing. -/
def Reads (st : Store) (s : ScopeId) (name : String) (v : Value) : Prop :=
  ∀ depth, (eval (depth + 1) (.symbol name) s).perform st = (.ok v, st)

theorem reads_of_get? (h : st.get? s name = some v) : st.Reads s name (readAs name v) := by
  intro depth
  rw [readAs]
  cases hliteral : (Value.symbol name).literal? with
  | some text =>
    rw [eval_literal hliteral]
    rfl
  | none => rw [eval_name hliteral, Action.perform_lookup, h]

/-- A name is read in the scope that it was defined in. -/
theorem reads_define (hs : s.index < st.scopes.size) :
    (st.define s name v).Reads s name (readAs name v) := by
  apply reads_of_get?
  rw [get?_define, if_pos ⟨rfl, hs, rfl⟩]

/-- Of several names that a scope was made with, each is read there. -/
theorem reads_extend {more : List (String × Value)} (hnodup : (more.map Prod.fst).Nodup)
    (h : (name, v) ∈ more) : (st.extend s more).2.Reads (st.extend s more).1 name (readAs name v) := by
  apply reads_of_get?
  rw [get?_extend]
  have hnew : (st.extend s more).1.index = st.scopes.size := rfl
  rw [if_pos hnew, Bindings.getElem?_overlay, Bindings.valueFor?_of_mem hnodup h]
  rfl

end Store

/-- A scope that there is before an evaluation is there after it. -/
theorem eval_keeps_scope {st st' : Store} {s : ScopeId} (hs : s.index < st.scopes.size) {depth : Nat}
    {e : Value} {r : Except Error Value} (h : (eval depth e s).perform st = (r, st')) :
    s.index < st'.scopes.size := by
  obtain ⟨-, hgrows, -⟩ := growth.eval_obeys depth st e s (Value.within_true e) trivial trivial
  change st.Grows ((eval depth e s).perform st).2 at hgrows
  rw [h] at hgrows
  exact Nat.lt_of_lt_of_le hs hgrows.scopes

/-- Parameters that are accepted are symbols. -/
theorem SpecialForm.eq_symbols_of_paramNames {form : SpecialForm} {params : List Value}
    {names : List String} (h : form.paramNames params = .ok names) : params = names.map .symbol := by
  induction params generalizing names with
  | nil =>
    cases h
    rfl
  | cons v params ih =>
    cases v with
    | symbol name =>
      rw [paramNames] at h
      obtain ⟨rest, hrest, hnames⟩ := Primitive.bind_eq_ok.mp h
      cases hnames
      rw [ih hrest]
      rfl
    | _ => cases h

/-- What names its parameters first succeeds only if they are symbols. -/
theorem SpecialForm.symbols_of_perform {α : Type} {form : SpecialForm} {params : List Value}
    {k : List String → Action α} {st st' : Store} {r : α}
    (h : (Action.ofExcept (form.paramNames params) >>= k).perform st = (.ok r, st')) :
    ∃ names : List String, params = names.map .symbol ∧ (k names).perform st = (.ok r, st') := by
  obtain ⟨names, st₁, hnames, hk⟩ := Action.perform_bind_eq_ok.mp h
  rw [Action.perform_ofExcept, Prod.mk.injEq] at hnames
  obtain ⟨hnames, rfl⟩ := hnames
  exact ⟨names, eq_symbols_of_paramNames hnames, hk⟩

/-- The values of bindings come with the names of the bindings, in order. -/
theorem SpecialForm.names_runBindings {run : Value → ScopeId → Action Value} {s : ScopeId}
    {pairs vs : List (String × Value)} {st st' : Store}
    (h : (runBindings run s pairs).perform st = (.ok vs, st')) :
    vs.map Prod.fst = pairs.map Prod.fst := by
  induction pairs generalizing vs st with
  | nil =>
    cases h
    rfl
  | cons p pairs ih =>
    rw [runBindings] at h
    obtain ⟨v, st₁, -, hrest⟩ := Action.perform_bind_eq_ok.mp h
    obtain ⟨rest, st₂, hrest, hvs⟩ := Action.perform_bind_eq_ok.mp hrest
    cases hvs
    rw [List.map_cons, List.map_cons, ih hrest]

/-- Applied to as many arguments as it has parameters, the procedure runs the body in a scope that is
made for the parameters, and there each of them is read as bound to its argument. -/
def Value.PassesArguments (p : Value) (names : List String) (body : Value) (s : ScopeId) : Prop :=
  ∀ (depth : Nat) (args : List Value) (st : Store), args.length = names.length →
    let made := st.extend s (names.zip args)
    (apply (depth + 1) p args).perform st = (eval depth body made.1).perform made.2 ∧
      ∀ q ∈ names.zip args, made.2.Reads made.1 q.1 (readAs q.1 q.2)

theorem closure_passesArguments {names : List String} (hnodup : names.Nodup) (i : Nat) (body : Value)
    (s : ScopeId) : (Value.closure i names body s).PassesArguments names body s := by
  intro depth args st hargs made
  constructor
  · rw [apply_closure hargs]
    rfl
  · intro q hq
    apply Store.reads_extend _ hq
    rwa [List.map_fst_zip (Nat.le_of_eq hargs.symm)]

section
variable {depth i j : Nat} {st st' : Store} {env : ScopeId} {name : String} {e r : Value}
  {params body : List Value}

theorem define_reads (henv : env.index < st.scopes.size)
    (h : (eval (depth + 1) (.list i [.symbol "define", .symbol name, e]) env).perform st =
      (.ok r, st')) :
    ∃ v st₁, (eval depth e env).perform st = (.ok v, st₁) ∧ st'.Reads env name (readAs name v) := by
  rw [eval_defineName] at h
  obtain ⟨v, st₁, hv, hdefine⟩ := Action.perform_bind_eq_ok.mp h
  cases hdefine
  exact ⟨v, st₁, hv, Store.reads_define (eval_keeps_scope henv hv)⟩

theorem assign_reads (henv : env.index < st.scopes.size)
    (h : (eval (depth + 1) (.list i [.symbol "set!", .symbol name, e]) env).perform st =
      (.ok r, st')) :
    ∃ v st₁, (eval depth e env).perform st = (.ok v, st₁) ∧ st'.Reads env name (readAs name v) := by
  cases hbound : st.contains env name with
  | false =>
    rw [assign_unbound depth i env name e hbound] at h
    cases h
  | true =>
    rcases he : (eval depth e env).perform st with ⟨err | v, st₁⟩
    · rw [assign_error depth i env name e hbound he] at h
      cases h
    · rw [(assign_ok depth i env name e hbound he).2] at h
      cases h
      exact ⟨v, st₁, rfl, Store.reads_define (eval_keeps_scope henv he)⟩

theorem lambda_passesArguments
    (h : (eval (depth + 1) (.list i [.symbol "lambda", .list j params, e]) env).perform st =
      (.ok r, st')) :
    ∃ names, params = names.map .symbol ∧ (names.Nodup → r.PassesArguments names e env) := by
  have hform : eval (depth + 1) (.list i [.symbol "lambda", .list j params, e]) env =
      lambda.evaluate (eval depth) env [.list j params, e] := eval_form lambda rfl depth i env
  rw [hform] at h
  obtain ⟨names, hparams, hclosure⟩ := symbols_of_perform h
  cases hclosure
  exact ⟨names, hparams, fun hnodup => closure_passesArguments hnodup _ e env⟩

/-- A procedure that is defined is bound to its name. -/
theorem defineProcedure_reads (henv : env.index < st.scopes.size)
    (h : (eval (depth + 1) (.list i (.symbol "define" :: .list j (.symbol name :: params) :: body))
      env).perform st = (.ok r, st')) :
    ∃ names e st₁, params = names.map .symbol ∧ (procedureBody body).perform st = (.ok e, st₁) ∧
      st'.Reads env name (readAs name (.closure st₁.nextIdentity names e env)) ∧
      (names.Nodup → (Value.closure st₁.nextIdentity names e env).PassesArguments names e env) := by
  have hbody : body ≠ [] := by
    rintro rfl
    cases h
  obtain ⟨names, rfl⟩ : ∃ names : List String, params = names.map .symbol := by
    have hform : eval (depth + 1)
        (.list i (.symbol "define" :: .list j (.symbol name :: params) :: body)) env =
          define.evaluate (eval depth) env (.list j (.symbol name :: params) :: body) :=
      eval_form define (accepts_body hbody _) depth i env
    rw [hform] at h
    obtain ⟨names, hparams, -⟩ := symbols_of_perform h
    exact ⟨names, hparams⟩
  rw [eval_define depth i j env name names hbody] at h
  obtain ⟨e, st₁, he, hdefine⟩ := Action.perform_bind_eq_ok.mp h
  cases hdefine
  refine ⟨names, e, st₁, rfl, he, ?_, fun hnodup => closure_passesArguments hnodup _ e env⟩
  -- making the body takes an identity at most
  apply Store.reads_define
  rcases body with _ | ⟨e, _ | ⟨e', es⟩⟩ <;> cases he <;> exact henv

/-- The names of a `let` are read in the scope of its body. -/
theorem let_reads {bindings : Value} {pairs vs : List (String × Value)} {st₁ : Store}
    (hpairs : letIn.bindingPairs bindings = .ok pairs) (hbody : body ≠ [])
    (hnodup : (pairs.map Prod.fst).Nodup)
    (hvs : (runBindings (eval depth) env pairs).perform st = (.ok vs, st₁)) :
    let made := st₁.extend env vs
    vs.map Prod.fst = pairs.map Prod.fst ∧
      (eval (depth + 1) (.list i (.symbol "let" :: bindings :: body)) env).perform st =
        (runAll (eval depth) made.1 body).perform made.2 ∧
      ∀ p ∈ vs, made.2.Reads made.1 p.1 (readAs p.1 p.2) := by
  have hnames := names_runBindings hvs
  obtain ⟨j, bindings, rfl, hbind⟩ := binds_of_bindingPairs hpairs
  refine ⟨hnames, ?_, fun p hp => ?_⟩
  · -- the scope is made when all expressions have been evaluated
    rw [eval_let depth i j env hbind hbody, Action.perform_bind, hvs]
    rfl
  · apply Store.reads_extend _ hp
    rwa [hnames]

theorem SpecialForm.runChain_append (run : Value → ScopeId → Action Value) (s : ScopeId)
    (before after : List (String × Value)) :
    runChain run s (before ++ after) = runChain run s before >>= fun t => runChain run t after := by
  induction before generalizing s with
  | nil => rw [List.nil_append, runChain, pure_bind]
  | cons p before ih => simp only [List.cons_append, runChain, bind_assoc, ih]

/-- A name of a `let*` is read in the scope of the bindings after it and of the body. -/
theorem letSeq_reads {bindings v : Value} {before after : List (String × Value)} {s : ScopeId}
    {st₁ st₂ : Store} (hpairs : letSeq.bindingPairs bindings = .ok (before ++ (name, e) :: after))
    (hbody : body ≠ [])
    (hbefore : (runChain (eval depth) (st.extend env []).1 before).perform (st.extend env []).2 =
      (.ok s, st₁))
    (hv : (eval depth e s).perform st₁ = (.ok v, st₂)) :
    let made := st₂.extend s [(name, v)]
    (eval (depth + 1) (.list i (.symbol "let*" :: bindings :: body)) env).perform st = (do
        let inner ← runChain (eval depth) made.1 after
        runAll (eval depth) inner body : Action Value).perform made.2 ∧
      made.2.Reads made.1 name (readAs name v) := by
  obtain ⟨j, bindings, rfl, hbind⟩ := binds_of_bindingPairs hpairs
  constructor
  · -- the bindings before the name, its own expression, and then what is left
    rw [eval_letSeq depth i j env hbind hbody, Action.perform_bind, Action.perform_extend]
    dsimp only
    rw [runChain_append, bind_assoc, Action.perform_bind, hbefore]
    dsimp only
    rw [runChain, bind_assoc, Action.perform_bind, hv]
    rfl
  · have hnodup : [name].Nodup := List.nodup_cons.mpr ⟨List.not_mem_nil, List.nodup_nil⟩
    exact Store.reads_extend hnodup (List.mem_singleton.mpr rfl)

end

/-- A name that a form binds is read in the scope where it was bound, and as the value it was bound to
unless it is in quotes. This holds of names that are defined or assigned to, of procedures that are
defined, of parameters, and of the names of local bindings, in the scope where the body runs or, if the
names are bound one after another, the rest of the form. -/
theorem names_read_as_bound (depth i j : Nat) (st : Store) (env : ScopeId)
    (henv : env.index < st.scopes.size) :
    (∀ name, (∀ v, readAs name v = v) ↔ (Value.symbol name).literal? = none) ∧
    (∀ form ∈ ["define", "set!"], ∀ name e r st',
      (eval (depth + 1) (.list i [.symbol form, .symbol name, e]) env).perform st = (.ok r, st') →
        ∃ v st₁, (eval depth e env).perform st = (.ok v, st₁) ∧
          st'.Reads env name (readAs name v)) ∧
    (∀ name params body r st',
      (eval (depth + 1) (.list i (.symbol "define" :: .list j (.symbol name :: params) :: body))
        env).perform st = (.ok r, st') →
        ∃ names e st₁, params = names.map .symbol ∧
          (procedureBody body).perform st = (.ok e, st₁) ∧
          st'.Reads env name (readAs name (.closure st₁.nextIdentity names e env)) ∧
          (names.Nodup → (Value.closure st₁.nextIdentity names e env).PassesArguments names e env)) ∧
    (∀ params e p st',
      (eval (depth + 1) (.list i [.symbol "lambda", .list j params, e]) env).perform st = (.ok p, st') →
        ∃ names, params = names.map .symbol ∧ (names.Nodup → p.PassesArguments names e env)) ∧
    (∀ bindings pairs body vs st₁, letIn.bindingPairs bindings = .ok pairs → body ≠ [] →
      (pairs.map Prod.fst).Nodup →
      (runBindings (eval depth) env pairs).perform st = (.ok vs, st₁) →
        let made := st₁.extend env vs
        vs.map Prod.fst = pairs.map Prod.fst ∧
        (eval (depth + 1) (.list i (.symbol "let" :: bindings :: body)) env).perform st =
          (runAll (eval depth) made.1 body).perform made.2 ∧
        ∀ p ∈ vs, made.2.Reads made.1 p.1 (readAs p.1 p.2)) ∧
    ∀ bindings before name e after body s st₁ v st₂,
      letSeq.bindingPairs bindings = .ok (before ++ (name, e) :: after) → body ≠ [] →
      (runChain (eval depth) (st.extend env []).1 before).perform (st.extend env []).2 = (.ok s, st₁) →
      (eval depth e s).perform st₁ = (.ok v, st₂) →
        let made := st₂.extend s [(name, v)]
        (eval (depth + 1) (.list i (.symbol "let*" :: bindings :: body)) env).perform st = (do
          let inner ← runChain (eval depth) made.1 after
          runAll (eval depth) inner body : Action Value).perform made.2 ∧
        made.2.Reads made.1 name (readAs name v) := by
  refine ⟨fun name => readAs_eq_iff, ?_, ?_, ?_, ?_, ?_⟩
  · intro form hform name e r st' h
    rcases List.mem_pair.mp hform with rfl | rfl
    · exact define_reads henv h
    · exact assign_reads henv h
  · intro name params body r st' h
    exact defineProcedure_reads henv h
  · intro params e p st' h
    exact lambda_passesArguments h
  · intro bindings pairs body vs st₁ hpairs hbody hnodup hvs
    exact let_reads hpairs hbody hnodup hvs
  · intro bindings before name e after body s st₁ v st₂ hpairs hbody hbefore hv
    exact letSeq_reads hpairs hbody hbefore hv

/-- One form binds a name and a name in quotes. The first is read as its value and the second is not. -/
theorem names_read_as_bound_quotes :
    let st : Store := { scopes := #[∅] }
    let pairs := [("x", Value.bool true), ("'x'", .bool false)]
    let bindings := Value.list 0 [.list 1 [.symbol "x", .bool true],
      .list 2 [.symbol "'x'", .bool false]]
    let made := st.extend ⟨0⟩ pairs
    letIn.bindingPairs bindings = .ok pairs ∧
      (eval 2 (.list 3 [.symbol "let", bindings, .symbol "x"]) ⟨0⟩).perform st =
        (eval 1 (.symbol "x") made.1).perform made.2 ∧
      made.2.Reads made.1 "x" (.bool true) ∧ made.2.Reads made.1 "'x'" (.string "x") := by
  intro st pairs bindings made
  obtain ⟨_, _, _, _, hlet, _⟩ := names_read_as_bound 1 3 0 st ⟨0⟩ (by decide)
  obtain ⟨-, hrun, hreads⟩ :=
    hlet bindings pairs [.symbol "x"] pairs st rfl (by simp) (by decide) rfl
  refine ⟨rfl, hrun, ?_, ?_⟩
  · exact hreads ("x", .bool true) (by simp [pairs])
  · exact hreads ("'x'", .bool false) (by simp [pairs])

/-- Every form accepts a name in quotes and binds it, and none of them makes it read as the value. -/
theorem quoted_names_unread :
    let st : Store := { scopes := #[Bindings.overlay ∅ [("'x'", .nil)]] }
    let name := Value.symbol "'x'"
    (∀ p ∈ [(Value.list 0 [.symbol "define", name, .bool true], Value.bool true),
        (.list 0 [.symbol "set!", name, .bool true], .bool true),
        (.list 0 [.symbol "define", .list 1 [name], .bool true], .closure 0 [] (.bool true) ⟨0⟩)],
      let done := (eval 2 p.1 ⟨0⟩).perform st
      done.1 = .ok .unspecified ∧ done.2.get? ⟨0⟩ "'x'" = some p.2 ∧
        ((eval 1 name ⟨0⟩).perform done.2).1 = .ok (.string "x")) ∧
    ∀ form ∈ [Value.list 0 [.symbol "let", .list 1 [.list 2 [name, .bool true]], name],
        .list 0 [.symbol "let*", .list 1 [.list 2 [name, .bool true]], name],
        .list 0 [.list 1 [.symbol "lambda", .list 2 [name], name], .bool true]],
      ((eval 4 form ⟨0⟩).perform st).1 = .ok (.string "x") := by
  intro st name
  constructor
  · intro p hp
    simp only [List.mem_cons, List.not_mem_nil, or_false] at hp
    rcases hp with rfl | rfl | rfl <;> exact ⟨rfl, rfl, rfl⟩
  · intro form hform
    simp only [List.mem_cons, List.not_mem_nil, or_false] at hform
    rcases hform with rfl | rfl | rfl <;> rfl

end SmallScheme
