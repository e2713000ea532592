import SmallScheme.Value

/-!
What the primitive procedures compute.

A primitive answers with a value that exists already or with the items of a list that is still to
be made, so that it needs no store.
-/
namespace SmallScheme

/-- The answer of a primitive. -/
inductive Reply where
  | value (v : Value)
  /-- The items of a new list. -/
  | fresh (items : List Value)

namespace Primitive

/-- The failure of a primitive that takes `expected` arguments and was given others. -/
def wrongCount (expected : Nat) (args : List Value) : Except Error Reply :=
  .error (.arity expected args.length none)

def number (op : String) : Value → Except Error Binary64
  | .number x => .ok x
  | v => .error (.runtime (.notNumber op v.text))

/-- The numbers among the arguments of `op`, which all have to be numbers. -/
def numbers (op : String) : List Value → Except Error (List Binary64)
  | [] => .ok []
  | v :: vs => do
    let x ← number op v
    let xs ← numbers op vs
    return x :: xs

def items (op : String) (v : Value) : Except Error (List Value) :=
  match v.items? with
  | some items => .ok items
  | none => .error (.runtime (.notList op v.text))

/-- Combines numbers from the left, starting at the first. -/
def foldNumbers (op : String) (f : Binary64 → Binary64 → Binary64) (v : Value)
    (vs : List Value) : Except Error Reply := do
  let x ← number op v
  let xs ← numbers op vs
  return .value (.number (xs.foldl f x))

/-- Combines numbers from the left, starting at `x`. -/
def foldNumbersFrom (op : String) (f : Binary64 → Binary64 → Binary64) (x : Binary64)
    (vs : List Value) : Except Error Reply := do
  let xs ← numbers op vs
  return .value (.number (xs.foldl f x))

/-- The items that an argument of a concatenation contributes. -/
def spliced : Value → List Value
  | .list _ items => items
  | .nil => []
  | v => [v]

/-- Computes the reply to the arguments. -/
def reply : Primitive → List Value → Except Error Reply
  | math f, [v] => do
    let x ← number f.name v
    return .value (.number (f.apply x))
  | math _, args => wrongCount 1 args
  | max, v :: vs => foldNumbers "max" Binary64.max v vs
  | max, [] => wrongCount 1 []
  | min, v :: vs => foldNumbers "min" Binary64.min v vs
  | min, [] => wrongCount 1 []
  | pow, [v, w] => foldNumbers "pow" Binary64.pow v [w]
  | pow, args => wrongCount 2 args
  | atan2, [v, w] => foldNumbers "atan2" Binary64.atan2 v [w]
  | atan2, args => wrongCount 2 args
  | hypot, args => foldNumbersFrom "hypot" Binary64.hypot 0 args
  | imul, [v, w] => foldNumbers "imul" (fun x y => Binary64.ofInt (x.wordProduct y)) v [w]
  | imul, args => wrongCount 2 args
  | add, args => foldNumbersFrom "+" (· + ·) 0 args
  | sub, [v] => do
    let x ← number "-" v
    return .value (.number (-x))
  | sub, v :: vs => foldNumbers "-" (· - ·) v vs
  | sub, [] => wrongCount 1 []
  | mul, args => foldNumbersFrom "*" (· * ·) 1 args
  | div, [v] => foldNumbersFrom "/" (· / ·) 1 [v]
  | div, v :: vs => foldNumbers "/" (· / ·) v vs
  | div, [] => wrongCount 1 []
  | remainder, [v, w] => foldNumbers "remainder" (· % ·) v [w]
  | remainder, args => wrongCount 2 args
  | modulo, [v, w] => foldNumbers "modulo" (fun x y => (x % y + y) % y) v [w]
  | modulo, args => wrongCount 2 args
  | compare c, [v, w] => do
    let x ← number c.name v
    let y ← number c.name w
    return .value (.bool (c.holds x y))
  | compare _, args => wrongCount 2 args
  | numEqual, [v, w] => .ok (.value (.bool (v.isEqual w)))
  | numEqual, args => wrongCount 2 args
  | equal, [v, w] => .ok (.value (.bool (v.isEqual w)))
  | equal, args => wrongCount 2 args
  | eq, [v, w] => .ok (.value (.bool (v.isIdentical w)))
  | eq, args => wrongCount 2 args
  | not, [v] => .ok (.value (.bool !v.isTruthy))
  | not, args => wrongCount 1 args
  | or, args => .ok (.value (((args.find? (·.isTruthy)).or args.getLast?).getD (.bool false)))
  | and, args => .ok (.value (((args.find? (!·.isTruthy)).or args.getLast?).getD (.bool true)))
  | list, args => .ok (.fresh args)
  | isList, [.list _ _] => .ok (.value (.bool true))
  | isList, [_] => .ok (.value (.bool false))
  | isList, args => wrongCount 1 args
  | isNull, [v] => .ok (.value (.bool v.isNil))
  | isNull, args => wrongCount 1 args
  | isPair, [.list _ items] => .ok (.value (.bool !items.isEmpty))
  | isPair, [_] => .ok (.value (.bool false))
  | isPair, args => wrongCount 1 args
  | length, [.string s] => .ok (.value (.number (.ofNat s.length)))
  | length, [v] => do
    let vs ← items "length" v
    return .value (.number (.ofNat vs.length))
  | length, args => wrongCount 1 args
  | car, [v] => do
    let vs ← items "car" v
    return .value (vs.head?.getD .nil)
  | car, args => wrongCount 1 args
  | cdr, [v] => do
    match ← items "cdr" v with
    | [] => return .value .nil
    | _ :: vs => return .fresh vs
  | cdr, args => wrongCount 1 args
  | cons, [v, w] => .ok (.fresh (v :: spliced w))
  | cons, args => wrongCount 2 args
  | append, args => .ok (.fresh (args.flatMap spliced))
  | reverse, [v] => do
    let vs ← items "reverse" v
    return .fresh vs.reverse
  | reverse, args => wrongCount 1 args
  | error, [] => .error (.runtime (.raised "Error"))
  | error, args => .error (.runtime (.raised (" ".intercalate (args.map Value.displayText))))

end Primitive

end SmallScheme
