import SmallScheme.Builtin.Reply
import SmallScheme.SpecialForm

/-!
Evaluation of expressions and application of procedures.

Both are one function of the task at hand, by recursion on the depth to which evaluation may still
nest. What happens at one depth is a function of what can be done one level below, so a property of
evaluation follows from a step that assumes it of the level below.
-/
namespace SmallScheme

/-- What there is to do: evaluate an expression in a scope, or apply a procedure to arguments. -/
inductive Task where
  | eval (e : Value) (s : ScopeId)
  | apply (procedure : Value) (args : List Value)

namespace Task

section

variable (below : Task → Action Value)

/-- The items whose image under a procedure is true. -/
def keep (procedure : Value) : List Value → Action (List Value)
  | [] => return []
  | v :: vs => do
    let kept := (← below (.apply procedure [v])).isTruthy
    let rest ← keep procedure vs
    return if kept then v :: rest else rest

/-- The images of items under a procedure. -/
def images (procedure : Value) : List Value → Action (List Value)
  | [] => return []
  | v :: vs => do
    let w ← below (.apply procedure [v])
    return w :: (← images procedure vs)

/-- Combines items from the left by a procedure of two arguments. -/
def accumulate (procedure : Value) (acc : Value) : List Value → Action Value
  | [] => return acc
  | v :: vs => do accumulate procedure (← below (.apply procedure [acc, v])) vs

/-- The procedure argument of a combinator. -/
def procedureArg (op : String) (v : Value) : Except Error Value :=
  if v.isProcedure then .ok v else .error (.runtime (.notProcedure op v.text))

/-- The failure of a built-in procedure that takes another number of arguments. -/
def wrongCount (expected : Nat) (args : List Value) : Action Value :=
  throw (.arity expected args.length none)

def combine : Combinator → List Value → Action Value
  | .map, [f, v] => do
    let f ← Action.ofExcept (procedureArg "map" f)
    let items ← Action.ofExcept (Primitive.items "map" v)
    Action.newList (← images below f items)
  | .filter, [f, v] => do
    let f ← Action.ofExcept (procedureArg "filter" f)
    let items ← Action.ofExcept (Primitive.items "filter" v)
    Action.newList (← keep below f items)
  | .fold, [f, init, v] | .reduce, [f, init, v] => do
    let f ← Action.ofExcept (procedureArg "fold" f)
    let items ← Action.ofExcept (Primitive.items "fold" v)
    accumulate below f init items
  | .apply, [f, v] => do
    let f ← Action.ofExcept (procedureArg "apply" f)
    let items ← Action.ofExcept (Primitive.items "apply" v)
    below (.apply f items)
  | .fold, args | .reduce, args => wrongCount 3 args
  | .map, args | .filter, args | .apply, args => wrongCount 2 args

/-- Runs a built-in procedure on arguments, whatever their number. -/
def invoke : Builtin → List Value → Action Value
  | .primitive p, args => do
    match ← Action.ofExcept (p.reply args) with
    | .value v => return v
    | .fresh items => Action.newList items
  | .combinator c, args => combine below c args
  | .random, [] => return .number (← Action.draw)
  | .random, args => wrongCount 0 args
  | .display, [v] => do
    Action.display v
    return .unspecified
  | .display, args => wrongCount 1 args

/-- Applies a procedure. The body of a closure runs in a copy of the scope it was made in. -/
def applyStep : Value → List Value → Action Value
  | .builtin op, args => do
    Action.ofExcept (op.arity.check (some op.name) args.length)
    invoke below op args
  | .closure _ params body s, args => do
    if params.length = args.length then
      below (.eval body (← Action.extend s (params.zip args)))
    else throw (.arity params.length args.length (some "lambda"))
  | v, _ => throw (.type (.notProcedure v.text))

/-- Evaluates expressions from left to right. -/
def evalAll (s : ScopeId) : List Value → Action (List Value)
  | [] => return []
  | e :: es => do
    let v ← below (.eval e s)
    return v :: (← evalAll s es)

/-- Evaluates an application. An error at run time is marked with the head of the application. -/
def evalApplication (s : ScopeId) (head : Value) (args : List Value) : Action Value := do
  let procedure ← below (.eval head s)
  let args ← evalAll below s args
  if procedure.isProcedure then
    tryCatch (below (.apply procedure args)) fun e => throw (e.inApplication head.text)
  else throw (.type (.headNotProcedure head.text procedure.text))

/-- Evaluates a list that is not empty. -/
def evalList (s : ScopeId) (head : Value) (args : List Value) : Action Value :=
  match SpecialForm.ofHead? head with
  | some form => do
    Action.ofExcept (form.arity.check (some form.name) args.length)
    form.evaluate (fun e s => below (.eval e s)) s args
  | none => evalApplication below s head args

/-- Evaluates an expression. Whatever is neither a symbol nor a list with items stands for
itself. -/
def evalStep (s : ScopeId) : Value → Action Value
  | .symbol name =>
    match (Value.symbol name).literal? with
    | some text => return .string text
    | none => Action.lookup s name
  | .list _ (head :: args) => evalList below s head args
  | e => return e

end

/-- Does a task, nesting evaluation up to the given depth. -/
def perform : (depth : Nat) → Task → Action Value
  | 0, _ => throw .tooDeep
  | depth + 1, .eval e s => evalStep (perform depth) s e
  | depth + 1, .apply procedure args => applyStep (perform depth) procedure args

end Task

/-- Evaluates an expression in a scope. -/
def eval (depth : Nat) (e : Value) (s : ScopeId) : Action Value := Task.perform depth (.eval e s)

/-- Applies a procedure to arguments. -/
def apply (depth : Nat) (procedure : Value) (args : List Value) : Action Value :=
  Task.perform depth (.apply procedure args)

end SmallScheme
