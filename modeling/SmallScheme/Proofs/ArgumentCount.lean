import SmallScheme.Proofs.Failure

/-! Numbers of arguments, as they are declared and as the built-in procedures have them.

Every built-in procedure is declared to take some numbers of arguments, and every one finds out again
how many it was given when it takes them apart. The two agree: a procedure that is run directly fails
over the number of its arguments exactly where the declaration rejects it, and in the same words. Since
declarations are checked first, no such failure is ever seen without the name of the procedure. -/
namespace SmallScheme

/-- The failure is about a number of arguments and does not say what they were given to. -/
def Error.LacksSubject (e : Error) : Prop := ∃ expected got, e.rootCause = .arity expected got none

theorem Error.IsRuntime.not_lacksSubject {e : Error} (h : e.IsRuntime) : ¬ e.LacksSubject := by
  rintro ⟨expected, got, hroot⟩
  cases e with
  | runtime fault => cases hroot
  | _ => cases h

/-- A failure that is marked is one at run time, and all others about numbers of arguments have a
subject. -/
theorem Error.Disciplined.not_lacksSubject {blames : String → Prop} {e : Error}
    (h : e.Disciplined blames) : ¬ e.LacksSubject := by
  rintro ⟨expected, got, hroot⟩
  cases e with
  | arity expected' got' subject? =>
    cases hroot
    cases h.subject_known expected got none rfl
  | application name cause =>
    obtain ⟨⟨fault, rfl⟩, _, _⟩ := h.marked_once name cause rfl
    cases hroot
  | _ => cases hroot

namespace Primitive

/-- A primitive that gets another number of arguments than it is declared to take fails over it. -/
theorem reply_rejected {p : Primitive} {args : List Value}
    (h : p.arity.accepts args.length = false) :
    p.reply args = wrongCount (p.arity.bound args.length) args := by
  cases p with
  -- no number of arguments is rejected
  | hypot | add | mul | or | and | list | append | error => cases h
  -- none at all is rejected
  | max | min | sub | div =>
    cases args with
    | nil => rfl
    | cons v args => exact absurd (Nat.succ_pos args.length) (of_decide_eq_false h)
  -- all but two
  | pow | atan2 | imul | remainder | modulo | compare c | numEqual | equal | eq | cons =>
    rcases args with _ | ⟨v, _ | ⟨w, _ | ⟨x, args⟩⟩⟩
    · rfl
    · rfl
    · cases h
    · rfl
  -- all but one
  | math f | not | isNull | car | cdr | reverse =>
    rcases args with _ | ⟨v, _ | ⟨w, args⟩⟩
    · rfl
    · cases h
    · rfl
  | isList | isPair | length =>
    rcases args with _ | ⟨v, _ | ⟨w, args⟩⟩
    · rfl
    · cases h
    · cases v <;> rfl

end Primitive

namespace Task
variable {args : List Value}

theorem combine_rejected {c : Combinator} (h : c.arity.accepts args.length = false)
    (below : Task → Action Value) : combine below c args = wrongCount (c.arity.bound args.length) args := by
  cases c with
  | map | filter | apply =>
    rcases args with _ | ⟨f, _ | ⟨v, _ | ⟨w, args⟩⟩⟩
    · rfl
    · rfl
    · cases h
    · rfl
  | fold | reduce =>
    rcases args with _ | ⟨f, _ | ⟨init, _ | ⟨v, _ | ⟨w, args⟩⟩⟩⟩
    · rfl
    · rfl
    · rfl
    · cases h
    · rfl

/-- A built-in procedure that gets another number of arguments than it is declared to take fails over
it at once, and does nothing below. -/
theorem invoke_rejected {op : Builtin} (h : op.arity.accepts args.length = false)
    (below : Task → Action Value) :
    invoke below op args = wrongCount (op.arity.bound args.length) args := by
  cases op with
  | primitive p =>
    rw [invoke, Primitive.reply_rejected h]
    rfl
  | combinator c => exact combine_rejected h below
  | random =>
    cases args with
    | nil => cases h
    | cons v args => rfl
  | display =>
    rcases args with _ | ⟨v, _ | ⟨w, args⟩⟩
    · rfl
    · cases h
    · rfl

variable {depth : Nat} {st st' : Store} {err : Error}

theorem not_lacksSubject_of_failure {t : Task}
    (hfail : (perform depth t).perform st = (.error err, st')) : ¬ err.LacksSubject :=
  (accounts_of_failure depth t st err st' hfail).disciplined.not_lacksSubject

/-- A built-in procedure that gets as many arguments as it is declared to take may fail, by itself or
because a procedure fails that it applies, but never with an error without a subject. -/
theorem not_lacksSubject_of_invoke {op : Builtin} (h : op.arity.accepts args.length = true)
    (hfail : (invoke (perform depth) op args).perform st = (.error err, st')) :
    ¬ err.LacksSubject := by
  rcases (applies_invoke h).failure hfail with hown | ⟨t, su, _, hcall, _⟩
  · exact hown.not_lacksSubject
  · exact not_lacksSubject_of_failure hcall

end Task

/-- Declarations agree with what the built-in procedures do. Run directly on any arguments, to any
depth and in any store, a built-in procedure fails over their number without a subject if and only if
its declaration rejects that number, and then with the error of the declaration and nothing done. An
application checks the declaration first and names the procedure. So no evaluation and no application
fails over a number of arguments without a subject, on whatever way the error comes out. -/
theorem lacks_subject_iff_rejected (depth : Nat) (st : Store) :
    (∀ op args,
      ((∃ expected got, ((Task.invoke (Task.perform depth) op args).perform st).1 =
          .error (.arity expected got none)) ↔ op.arity.accepts args.length = false) ∧
      (∀ err, op.arity.check none args.length = .error err →
        (Task.invoke (Task.perform depth) op args).perform st = (.error err, st)) ∧
      (op.arity.accepts args.length = false → (apply (depth + 1) (.builtin op) args).perform st =
        (.error (.arity (op.arity.bound args.length) args.length (some op.name)), st))) ∧
    (∀ e s err st', (eval depth e s).perform st = (.error err, st') → ¬ err.LacksSubject) ∧
    ∀ p args err st', (apply depth p args).perform st = (.error err, st') → ¬ err.LacksSubject := by
  refine ⟨fun op args => ⟨⟨?_, fun h => ?_⟩, fun err herr => ?_, fun h => ?_⟩, ?_, ?_⟩
  · rintro ⟨expected, got, hfail⟩
    refine Bool.eq_false_iff.mpr fun h => ?_
    exact Task.not_lacksSubject_of_invoke h (Prod.ext hfail rfl) ⟨expected, got, rfl⟩
  · rw [Task.invoke_rejected h]
    exact ⟨_, _, rfl⟩
  · unfold Arity.check at herr
    split at herr
    · cases herr
    · next h =>
      cases herr
      rw [Task.invoke_rejected (Bool.eq_false_iff.mpr h)]
      rfl
  · change ((Task.apply (.builtin op) args).step (Task.perform depth)).perform st = _
    rw [Task.step_builtin, Arity.check, h]
    rfl
  · exact fun e s err st' hfail => Task.not_lacksSubject_of_failure hfail
  · exact fun p args err st' hfail => Task.not_lacksSubject_of_failure hfail

set_option maxRecDepth 20000 in
/-- A procedure that is called back with too few arguments: its error comes out of the one that calls
it, with its own name, while the same procedure run directly gives no name. -/
theorem lacks_subject_iff_rejected_callback :
    let st := (Session.start { depth := 0 }).store
    let e := Value.list 0 [.symbol "map", .symbol "cons",
      .list 1 [.symbol "quote", .list 2 [.bool true]]]
    let err := Error.arity 2 1 (some "cons")
    let direct := (Task.invoke (Task.perform 5) (.primitive .cons) [.bool true]).perform st
    ((eval 5 e ⟨0⟩).perform st).1 = .error err ∧ ¬ err.LacksSubject ∧
      direct = (.error (.arity 2 1 none), st) ∧
      (Builtin.primitive .cons).arity.accepts 1 = false := by
  intro st e err direct
  obtain ⟨hdirect, heval, _⟩ := lacks_subject_iff_rejected 5 st
  obtain ⟨hiff, hcheck, _⟩ := hdirect (.primitive .cons) [.bool true]
  have hfail : ((eval 5 e ⟨0⟩).perform st).1 = .error err := by rfl
  have hrun : direct = (.error (.arity 2 1 none), st) := hcheck _ rfl
  exact ⟨hfail, heval e ⟨0⟩ err _ (Prod.ext hfail rfl), hrun,
    hiff.mp ⟨2, 1, congrArg Prod.fst hrun⟩⟩

end SmallScheme
