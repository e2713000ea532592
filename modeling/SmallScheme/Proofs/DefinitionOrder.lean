import SmallScheme.Proofs.Forms
import SmallScheme.Proofs.Lockstep
import SmallScheme.Proofs.Running

/-! The order of definitions: procedures of different names can be defined in either order.

A definition takes the next identities and binds one name to a procedure made of them. Two of them in
either order leave stores in which the same names are bound and two blocks of identities are swapped,
and every later program goes on in step in both. -/
namespace SmallScheme

/-- A definition of a procedure: its name, its parameters and the expressions of its body. -/
structure ProcedureDefinition where
  name : String
  params : List String
  body : List Datum
  body_ne_nil : body ≠ []

/-- The definition as a form: `(define (name param ...) e ...)`. -/
def ProcedureDefinition.form (d : ProcedureDefinition) : Datum :=
  .list (.symbol "define" :: .list (.symbol d.name :: d.params.map .symbol) :: d.body)

/-- The action takes `count` identities and binds a name in a scope to the value that `made` makes of
them, and does nothing else. -/
structure Action.Installs (a : Action Value) (s : ScopeId) (name : String) (count : Nat)
    (made : Nat → Value) : Prop where
  perform : ∀ st, a.perform st = (.ok .unspecified,
    { st with nextIdentity := st.nextIdentity + count }.define s name (made st.nextIdentity))
  rename : ∀ (ρ : Renaming) (n n' : Nat), ρ.scope s = s →
    (∀ k < count, ρ.identity (n + k) = n' + k) → made n' = (made n).rename ρ

theorem Value.loadAll_symbols (names : List String) (n : Nat) :
    loadAll (names.map .symbol) n = (names.map .symbol, n) := by
  induction names with
  | nil => rfl
  | cons name names ih => simp only [List.map_cons, loadAll, load, ih]

theorem Datum.listsAll_symbols (names : List String) : listsAll (names.map .symbol) = 0 := by
  induction names with
  | nil => rfl
  | cons name names ih => simp only [List.map_cons, listsAll, lists, ih]

namespace ProcedureDefinition
variable (d : ProcedureDefinition)

theorem load_form (n : Nat) :
    (Value.load d.form n).1 = .list n (.symbol "define" ::
      .list (n + 1) (.symbol d.name :: d.params.map .symbol) :: (Value.loadAll d.body (n + 2)).1) := by
  simp only [form, Value.load, Value.loadAll, Value.loadAll_symbols]

theorem lists_form : d.form.lists = Datum.listsAll d.body + 2 := by
  simp only [form, Datum.lists, Datum.listsAll, Datum.listsAll_symbols]
  omega

/-- A definition is loaded, and then a procedure of its body is bound. -/
theorem perform_form (depth : Nat) (s : ScopeId) (st : Store) :
    (evalForm (depth + 1) s d.form).perform st =
      (do
        let e ← procedureBody (Value.loadAll d.body (st.nextIdentity + 2)).1
        Action.define s d.name (← Action.newClosure d.params e s)
        return .unspecified : Action Value).perform
        { st with nextIdentity := st.nextIdentity + d.form.lists } := by
  have hbody : (Value.loadAll d.body (st.nextIdentity + 2)).1 ≠ [] := by
    obtain ⟨e, es, hes⟩ := List.exists_cons_of_ne_nil d.body_ne_nil
    rw [hes, Value.loadAll]
    exact List.cons_ne_nil _ _
  rw [evalForm, Action.perform_bind, Action.perform_load]
  dsimp only
  rw [load_form, eval_define _ _ _ _ _ _ hbody]

/-- A definition installs its procedure. -/
theorem installs (depth : Nat) (s : ScopeId) :
    ∃ count made, (evalForm (depth + 1) s d.form).Installs s d.name count made := by
  have hlists := d.lists_form
  have hperform := d.perform_form depth s
  -- the body is loaded from the identity after those of the form and its parameters
  have hbody {ρ : Renaming} {n n' : Nat} (h : ∀ k < d.form.lists, ρ.identity (n + k) = n' + k) :
      (Value.loadAll d.body (n' + 2)).1 =
        (Value.loadAll d.body (n + 2)).1.map (Value.rename ρ) := by
    apply Value.loadAll_rename
    intro k hk
    rw [Nat.add_assoc, Nat.add_assoc]
    exact h _ (by omega)
  rcases hb : d.body with _ | ⟨e, _ | ⟨e', es⟩⟩
  · exact absurd hb d.body_ne_nil
  · -- the expression is the body, and the closure takes the one identity after those of the form
    rw [hb] at hperform hbody
    refine ⟨d.form.lists + 1, fun n =>
      .closure (n + d.form.lists) d.params (Value.load e (n + 2)).1 s, hperform, ?_⟩
    intro ρ n n' hs h
    have he := List.head_eq_of_cons_eq (hbody fun k hk => h k (by omega))
    rw [Value.rename_closure, hs, h _ (Nat.lt_succ_self _), he]
  · -- the list of the expressions takes an identity before the closure does
    rw [hb] at hperform hbody
    refine ⟨d.form.lists + 2, fun n => .closure (n + d.form.lists + 1) d.params
      (.list (n + d.form.lists) (.symbol "begin" :: (Value.loadAll (e :: e' :: es) (n + 2)).1)) s,
      hperform, ?_⟩
    intro ρ n n' hs h
    have hlist : ρ.identity (n + d.form.lists) = n' + d.form.lists := h d.form.lists (by omega)
    have hclosure : ρ.identity (n + d.form.lists + 1) = n' + d.form.lists + 1 :=
      h (d.form.lists + 1) (by omega)
    rw [Value.rename_closure, Value.rename_list, hs, hlist, hclosure, List.map_cons,
      ← hbody fun k hk => h k (by omega), Value.rename_symbol]

end ProcedureDefinition

namespace Renaming

/-- Swaps the `a` identities from `n` on with the `b` identities after them. -/
def swap (n a b : Nat) : Renaming where
  identity i := if i < n then i else if i < n + a then i + b else if i < n + a + b then i - a else i
  scope := id
  identity_injective := by
    intro i j h
    dsimp only at h
    split_ifs at h <;> omega
  scope_injective _ _ h := h

variable {n a b : Nat}

theorem swap_first {k : Nat} (hk : k < a) : (swap n a b).identity (n + k) = n + b + k := by
  dsimp only [swap]
  split_ifs <;> omega

theorem swap_second {k : Nat} (hk : k < b) : (swap n a b).identity (n + a + k) = n + k := by
  dsimp only [swap]
  split_ifs <;> omega

theorem swap_after (k : Nat) : (swap n a b).identity (n + a + b + k) = n + b + a + k := by
  dsimp only [swap]
  split_ifs <;> omega

theorem swap_fixes (st : Store) : (swap st.nextIdentity a b).Fixes st where
  identity _ hi := if_pos hi
  scope _ := rfl

end Renaming

namespace Store

variable {ρ : Renaming} {old : List Value × List Value} {a b : Store}

theorem InStep.define_comm {s : ScopeId} {f g : String} (hne : f ≠ g) {v w : Value}
    (h : a.InStep ρ old ((b.define s f v).define s g w)) :
    a.InStep ρ old ((b.define s g w).define s f v) where
  identity := h.identity
  scope k := by
    have hk := h.scope k
    rwa [size_define, size_define] at hk ⊢
  present t ht := by
    have hp := h.present t ht
    rwa [size_define, size_define] at hp ⊢
  get t name := by
    rw [← get?_define_comm b s hne]
    exact h.get t name
  shown := h.shown
  numbers := h.numbers
  draws := h.draws

end Store

/-- Two installations in either order lead to stores that are in step. -/
theorem Action.Installs.inStep {p q : Action Value} {s : ScopeId} {f g : String} {a b : Nat}
    {u w : Nat → Value} (hp : p.Installs s f a u) (hq : q.Installs s g b w) (hne : f ≠ g) {st : Store}
    (hst : st.Closed) :
    (q.perform (p.perform st).2).2.InStep (.swap st.nextIdentity a b)
      (st.shown.toList, st.shown.toList) (p.perform (q.perform st).2).2 := by
  -- each value is made of the same identities as in the other order, up to the swap
  have hu : u (st.nextIdentity + b) = (u st.nextIdentity).rename (.swap st.nextIdentity a b) :=
    hp.rename _ _ _ rfl fun k hk => Renaming.swap_first hk
  have hw : w st.nextIdentity = (w (st.nextIdentity + a)).rename (.swap st.nextIdentity a b) :=
    hq.rename _ _ _ rfl fun k hk => Renaming.swap_second hk
  -- without the bindings the stores are in step, and with each binding they stay so
  have hbase := (Renaming.swap_fixes st).inStep hst (Renaming.swap_after (a := a) (b := b))
  have hboth := (hbase.define s f (u st.nextIdentity)).define s g (w (st.nextIdentity + a))
  rw [← hu, ← hw] at hboth
  rw [hp.perform, hq.perform, hq.perform, hp.perform]
  exact hboth.define_comm hne

/-- Where evaluation may not nest at all, a form is loaded and that is all. -/
theorem evalForm_zero (s : ScopeId) (d : Datum) (st : Store) :
    (evalForm 0 s d).perform st =
      (.error .tooDeep, { st with nextIdentity := st.nextIdentity + d.lists }) := by
  rw [evalForm, Action.perform_bind, Action.perform_load]
  rfl

namespace Session
variable {ses : Session} {d e : ProcedureDefinition} {first second : String}

/-- Two definitions have the same outcomes in either order, and lead to stores that are in step. -/
theorem evaluate_definitions (hst : ses.store.Closed) (hne : d.name ≠ e.name)
    (hfirst : Program.ofText first = .single d.form)
    (hsecond : Program.ofText second = .single e.form) :
    ((ses.evaluate first).2.evaluate second).1 = (ses.evaluate second).1 ∧
    ((ses.evaluate second).2.evaluate first).1 = (ses.evaluate first).1 ∧
    ∃ ρ : Renaming, ρ.Fixes ses.store ∧
      ((ses.evaluate first).2.evaluate second).2.store.InStep ρ ([], [])
        ((ses.evaluate second).2.evaluate first).2.store := by
  have hclear : ({ ses.store with shown := #[] } : Store).Closed := hst
  simp only [evaluate_form hfirst, evaluate_form hsecond, run]
  rcases hdepth : ses.depth with _ | depth
  · -- nothing is defined, and as many identities are used up in either order
    have hsame : Renaming.same.Fixes { ses.store with shown := #[] } := ⟨fun _ _ => rfl, fun _ => rfl⟩
    simp only [evalForm_zero]
    refine ⟨trivial, trivial, .same, ⟨hsame.identity, hsame.scope⟩, ?_⟩
    apply hsame.inStep hclear
    intro k
    exact congrArg (· + k) (Nat.add_right_comm _ _ _)
  · -- neither definition shows anything, so clearing what was shown in between changes nothing
    obtain ⟨a, u, hd⟩ := d.installs depth ses.global
    obtain ⟨b, w, he⟩ := e.installs depth ses.global
    have hstep := hd.inStep he hne hclear
    simp only [hd.perform, he.perform] at hstep ⊢
    refine ⟨rfl, rfl, .swap ses.store.nextIdentity a b, Renaming.swap_fixes ses.store, ?_⟩
    exact hstep

end Session

/-- The order of two definitions of procedures does not matter if their names differ. In every session,
evaluating the one and the other and then any text has the same outcome as with the definitions the
other way round: each definition has its outcome, the text has the same error or the same value up to
the identities of what was made, shows the same values, and leaves scopes that bind the same names to
the same values, all up to those identities. The procedures may refer to each other and to
themselves. -/
theorem definitions_commute (ses : Session) (hst : ses.store.Closed) {d e : ProcedureDefinition}
    (hne : d.name ≠ e.name) {first second : String} (hfirst : Program.ofText first = .single d.form)
    (hsecond : Program.ofText second = .single e.form) (text : String) :
    let one := (ses.evaluate first).2.evaluate second
    let other := (ses.evaluate second).2.evaluate first
    one.1 = (ses.evaluate second).1 ∧ other.1 = (ses.evaluate first).1 ∧
    ∃ ρ : Renaming, ρ.Fixes ses.store ∧
      (other.2.evaluate text).1.result = (one.2.evaluate text).1.result.map (Value.rename ρ) ∧
      (other.2.evaluate text).1.shown = (one.2.evaluate text).1.shown.map (Value.rename ρ) ∧
      ∀ s name, (other.2.evaluate text).2.store.get? s name =
        ((one.2.evaluate text).2.store.get? s name).map (Value.rename ρ) := by
  intro one other
  obtain ⟨hone, hother, ρ, hρ, hstep⟩ := Session.evaluate_definitions hst hne hfirst hsecond
  -- the text is evaluated with nothing shown yet, from stores that are in step
  have hclear : Store.InStep ρ ([], []) { one.2.store with shown := #[] }
      { other.2.store with shown := #[] } := { hstep with shown := ⟨[], rfl, rfl⟩ }
  have hrun := (Program.ofText text).parallels_eval ρ ([], []) ses.depth ses.global _ _ hclear
  rw [hρ.scope] at hrun
  obtain ⟨hafter, hresult⟩ := hrun
  obtain ⟨vs, hvs, hvs'⟩ := hafter.shown
  refine ⟨hone, hother, ρ, hρ, hresult, ?_, fun s name => ?_⟩
  · exact hvs'.trans (congrArg (List.map (Value.rename ρ)) hvs.symm)
  · have hget := hafter.get s name
    rwa [hρ.scope] at hget

set_option maxRecDepth 20000 in
/-- Two procedures that refer to each other. The first comes back as a value, and its identities tell
in which order the two were defined. -/
theorem definitions_commute_mutual :
    let ses := Session.start { depth := 9 }
    let one := (ses.evaluate "(define (f) (g))").2.evaluate "(define (g) f)"
    let other := (ses.evaluate "(define (g) f)").2.evaluate "(define (f) (g))"
    (one.2.evaluate "(f)").1.result = .ok (.closure 3 [] (.list 2 [.symbol "g"]) ⟨0⟩) ∧
      ∃ ρ : Renaming, ρ.Fixes ses.store ∧ (other.2.evaluate "(f)").1.result =
        .ok (.closure (ρ.identity 3) [] (.list (ρ.identity 2) [.symbol "g"]) ⟨0⟩) := by
  intro ses one other
  let d : ProcedureDefinition := ⟨"f", [], [.list [.symbol "g"]], List.cons_ne_nil _ _⟩
  let e : ProcedureDefinition := ⟨"g", [], [.symbol "f"], List.cons_ne_nil _ _⟩
  have hread (text : String) (ts : List Token) {form : Datum} (htokens : tokenize text = ts)
      (h : Datum.read ts = (.ok form, [])) : Program.ofText text = .single form := by
    rw [Program.ofText, htokens, Program.ofTokens_ok h, Program.ofTokens_nil]
    rfl
  have hfirst : Program.ofText "(define (f) (g))" = .single d.form :=
    hread _ [.lparen, .word "define", .lparen, .word "f", .rparen, .lparen, .word "g", .rparen,
      .rparen] (by decide) rfl
  have hsecond : Program.ofText "(define (g) f)" = .single e.form :=
    hread _ [.lparen, .word "define", .lparen, .word "g", .rparen, .word "f", .rparen] (by decide) rfl
  have htext : Program.ofText "(f)" = .single (.list [.symbol "f"]) :=
    hread _ [.lparen, .word "f", .rparen] (by decide) rfl
  have hresult : (one.2.evaluate "(f)").1.result =
      .ok (.closure 3 [] (.list 2 [.symbol "g"]) ⟨0⟩) := by
    simp only [one, ses, Session.evaluate_form htext, Session.evaluate_form hfirst,
      Session.evaluate_form hsecond, d, e]
    rfl
  obtain ⟨_, _, ρ, hρ, hother, _⟩ := definitions_commute ses (Session.start_closed { depth := 9 })
    (d := d) (e := e) (by decide) hfirst hsecond "(f)"
  refine ⟨hresult, ρ, hρ, ?_⟩
  rw [hother, hresult, Except.map, Value.rename_closure, hρ.scope, Value.rename_list]
  rfl

end SmallScheme
