import SmallScheme.Proofs.Depth
import SmallScheme.Proofs.Forms

/-! Conditionals: what `cond` abbreviates.

A list of clauses is gone through from the left until a test is true. Folded from the right it becomes
one conditional inside of another, each in the place of the alternative of the one before. Neither
makes anything of its own, so the two cannot be told apart even by identities. -/
namespace SmallScheme
open SpecialForm

/-- The value is a clause: a list of a test and at least one expression. -/
def Value.IsClause (v : Value) : Prop := ∃ i test e body, v = .list i (test :: e :: body)

/-- The clauses, folded from the right, are the alternative of a conditional. It is missing if there is
no clause; a clause for all other cases is its body, whatever comes after it; and any other clause is a
conditional with the rest as its alternative. -/
inductive Folds : (clauses alternative : List Value) → Prop where
  | nil : Folds [] []
  | otherwise {body clauses : List Value} (i j : Nat) : body ≠ [] →
      Folds (.list i (.symbol "else" :: body) :: clauses) [.list j (.symbol "begin" :: body)]
  | test {test : Value} {body clauses alternative : List Value} (i j k : Nat) :
      test ≠ .symbol "else" → body ≠ [] → Folds clauses alternative →
        Folds (.list i (test :: body) :: clauses)
          [.list j (.symbol "if" :: test :: .list k (.symbol "begin" :: body) :: alternative)]

theorem Folds.length_le {clauses alternative : List Value} (h : Folds clauses alternative) :
    alternative.length ≤ 1 := by
  cases h with
  | nil => exact Nat.zero_le 1
  | otherwise => exact Nat.le_refl 1
  | test => exact Nat.le_refl 1

/-- Clauses can be folded, and give an expression if there is one at least. -/
theorem exists_folds {clauses : List Value} (h : ∀ c ∈ clauses, c.IsClause) :
    ∃ alternative, Folds clauses alternative ∧ (clauses ≠ [] → ∃ e, alternative = [e]) := by
  induction clauses with
  | nil => exact ⟨[], .nil, fun hne => absurd rfl hne⟩
  | cons c clauses ih =>
    obtain ⟨⟨i, test, e, body, rfl⟩, hrest⟩ := List.forall_mem_cons.mp h
    by_cases ht : test = .symbol "else"
    · subst ht
      exact ⟨_, .otherwise i 0 (List.cons_ne_nil _ _), fun _ => ⟨_, rfl⟩⟩
    · obtain ⟨alternative, hfolds, _⟩ := ih hrest
      exact ⟨_, .test i 0 0 ht (List.cons_ne_nil _ _) hfolds, fun _ => ⟨_, rfl⟩⟩

section
variable {body : List Value} {s : ScopeId} {st : Store} {out : Except Error Value × Store}

/-- A body may as well be one expression. -/
theorem ends_begin (hbody : body ≠ []) (j : Nat) :
    Action.Ends (fun depth => runAll (eval depth) s body) st out ↔
      Action.Ends (fun depth => eval depth (.list j (.symbol "begin" :: body)) s) st out := by
  rw [← Action.ends_succ (Action.deepening_eval _ s)]
  simp only [eval_begin _ j s hbody]

/-- Going through clauses comes to what their folding comes to. -/
theorem Folds.ends_iff {clauses alternative : List Value} (h : Folds clauses alternative) :
    Action.Ends (fun depth => runClauses (eval depth) s clauses) st out ↔
      Action.Ends (fun depth => runAll (eval depth) s alternative) st out := by
  induction h generalizing st out with
  | nil => rfl
  | otherwise i j hbody =>
    obtain ⟨e, body, rfl⟩ := List.exists_cons_of_ne_nil hbody
    exact ends_begin hbody j
  | @test test body clauses alternative i j k htest hbody h ih =>
    obtain ⟨e, body, rfl⟩ := List.exists_cons_of_ne_nil hbody
    change _ ↔ Action.Ends (fun depth => eval depth _ s) st out
    rw [← Action.ends_succ (Action.deepening_eval _ s)]
    simp only [eval_if _ _ _ _ _ h.length_le, Simulation.runClauses_cons htest]
    -- the test is evaluated in both, and may fail; what comes after it depends on its value and on
    -- the store that it leaves
    apply Action.ends_bind_congr (Action.deepening_eval test s)
    · intro v
      split
      · exact Action.deepening_runAll s (e :: body)
      · exact Action.deepening_runClauses s clauses
    · intro v
      split
      · exact Action.deepening_eval _ s
      · exact Action.deepening_runAll s alternative
    · intro v st1
      split
      · exact ends_begin hbody k
      · exact ih

end

/-- `cond` is nested `if`. In every store and scope, a list of clauses, each of a test and at least one
expression, can be folded from the right into one conditional inside of another, and the form with the
clauses comes to an end if and only if every such conditional does, with the very same outcome: error or
value, values shown and store. -/
theorem cond_ends_iff_folded (st : Store) (env : ScopeId) {clauses : List Value}
    (hne : clauses ≠ []) (hclauses : ∀ c ∈ clauses, c.IsClause) (i : Nat) :
    (∃ e, Folds clauses [e]) ∧ ∀ e, Folds clauses [e] → ∀ out,
      (Action.Ends (fun depth => eval depth (.list i (.symbol "cond" :: clauses)) env) st out ↔
        Action.Ends (fun depth => eval depth e env) st out) := by
  constructor
  · obtain ⟨alternative, hfolds, hsome⟩ := exists_folds hclauses
    obtain ⟨e, rfl⟩ := hsome hne
    exact ⟨e, hfolds⟩
  · intro e hfolds out
    rw [← Action.ends_succ (Action.deepening_eval _ env)]
    simp only [eval_cond _ i env hne]
    exact hfolds.ends_iff

/-- A test that is false defines a name, the clause for all other cases assigns to it, and a clause
after that one is left out. -/
theorem cond_ends_iff_folded_define :
    let st : Store := { scopes := #[∅] }
    let test := Value.list 0 [.symbol "define", .symbol "x", .symbol "'a'"]
    let body := [Value.list 1 [.symbol "set!", .symbol "x", .symbol "'b'"], .symbol "x"]
    let clauses := [Value.list 2 [test, .symbol "y"], .list 3 (.symbol "else" :: body),
      .list 4 [.bool true, .symbol "y"]]
    let folded := Value.list 5 [.symbol "if", test, .list 6 [.symbol "begin", .symbol "y"],
      .list 7 (.symbol "begin" :: body)]
    let out := (eval 3 (.list 8 (.symbol "cond" :: clauses)) ⟨0⟩).perform st
    out.1 = .ok (.string "b") ∧ Action.Ends (fun depth => eval depth folded ⟨0⟩) st out := by
  intro st test body clauses folded out
  have hresult : out.1 = .ok (.string "b") := rfl
  have hends : Action.Ends
      (fun depth => eval depth (.list 8 (.symbol "cond" :: clauses)) ⟨0⟩) st out := by
    refine ⟨?_, 3, rfl⟩
    rw [hresult]
    intro herror
    cases herror
  have hclauses : ∀ c ∈ clauses, c.IsClause := by
    simp only [clauses, List.forall_mem_cons]
    exact ⟨⟨_, _, _, _, rfl⟩, ⟨_, _, _, _, rfl⟩, ⟨_, _, _, _, rfl⟩, List.forall_mem_nil _⟩
  have htest : test ≠ .symbol "else" := Value.noConfusion
  have hfolds : Folds clauses [folded] :=
    .test 2 5 6 htest (List.cons_ne_nil _ _) (.otherwise 3 7 (List.cons_ne_nil _ _))
  have h := cond_ends_iff_folded st ⟨0⟩ (List.cons_ne_nil _ _) hclauses 8
  exact ⟨hresult, (h.2 folded hfolds out).mp hends⟩

end SmallScheme
