import SmallScheme.Error

/-!
Numbers of arguments that procedures and special forms accept.
-/
namespace SmallScheme

inductive Arity where
  | exactly (n : Nat)
  | atLeast (n : Nat)
  | between (least most : Nat)
  | any
deriving DecidableEq

namespace Arity

def accepts : Arity → Nat → Bool
  | exactly n, count => count = n
  | atLeast n, count => n ≤ count
  | between least most, count => least ≤ count && count ≤ most
  | any, _ => true

/-- The bound that a rejected count violates. -/
def bound : Arity → Nat → Nat
  | exactly n, _ => n
  | atLeast n, _ => n
  | between least most, count => if most < count then most else least
  | any, _ => 0

/-- Accepts a count, or fails naming the subject that was given so many arguments. -/
def check (a : Arity) (subject? : Option String) (count : Nat) : Except Error Unit :=
  if a.accepts count then .ok () else .error (.arity (a.bound count) count subject?)

def text : Arity → String
  | exactly 1 => "1 argument"
  | exactly n => s!"{n} arguments"
  | atLeast n => s!"at least {n} arguments"
  | between least most => s!"{least} to {most} arguments"
  | any => "any number of arguments"

end Arity

end SmallScheme
